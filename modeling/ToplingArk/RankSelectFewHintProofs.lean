import ToplingArk.RunProofs
import ToplingArk.RankSelectFewBuildProofs

/-! # `rank_select_few` with a hint — what is left behind for the next query

    A hinted query probes the neighbourhood of the hint before it searches, and
    leaves a new hint behind.  The run queries read the hint that `lower_bound` leaves
    where their plain forms read what it returns.  The two differ in one case: probed at
    the last pivot with a value above it, `lower_bound` returns the number of pivots
    and leaves the hint on the last one. -/

namespace RankSelectFew

open Search RankSelectLine Runs List Option

/-! ## Hinted queries -/

variable (x : Few) {pos : Nat} {c : Bool}

/-- A probe of entry `k`; every probe is guarded by `k` being a pivot's index. -/
def Few.probe (k : Nat) (test : Nat → Bool) : Bool := (x.val k).any test

/-- `lower_bound(val, hint)`: what it returns and the hint it leaves. -/
def lowerBoundHint (val hint : Nat) : Option (Nat × Nat) :=
  let search := (lowerBound x val).map (fun k => (k, k))
  if hint < x.n then
    if 0 < hint && x.probe (hint - 1) (· < val) && x.probe hint (val ≤ ·) then some (hint, hint)
    else if hint + 1 < x.n && x.probe hint (· < val) && x.probe (hint + 1) (val ≤ ·) then
      some (hint + 1, hint + 1)
    else if 1 < hint && x.probe (hint - 2) (· < val) && x.probe (hint - 1) (val ≤ ·) then
      some (hint - 1, hint - 1)
    else if hint = 0 && x.probe 0 (val ≤ ·) then some (0, hint)
    else if hint + 1 = x.n && x.probe hint (· < val) then some (x.n, hint)
    else search
  else if hint = x.n && x.probe (x.n - 1) (· ≤ val) then
    let k := x.n - (x.probe (x.n - 1) (· = val)).toNat
    some (k, k)
  else search

/-- `select_complement(id, hint)` -/
def selectComplementHint (id hint : Nat) : Option (Nat × Nat) :=
  let val := id + hint
  let search := (selectComplement x id).map (fun k => (k, k))
  if hint < x.n then
    if 0 < hint && x.probe (hint - 1) (· ≤ val - 1) && x.probe hint (val < ·) then
      some (id + hint, hint)
    else if hint + 1 < x.n && x.probe hint (· ≤ val) && x.probe (hint + 1) (val + 1 < ·) then
      some (id + (hint + 1), hint + 1)
    else if 1 < hint && x.probe (hint - 2) (· ≤ val - 2) && x.probe (hint - 1) (val - 1 < ·) then
      some (id + (hint - 1), hint - 1)
    else if hint + 1 = x.n && x.probe hint (· ≤ val) then some (id + x.n, hint)
    else if hint = 0 && x.probe 0 (val < ·) then some (id, hint)
    else search
  else if hint = x.n && x.probe (x.n - 1) (· ≤ val) then
    let k := x.n - (x.probe (x.n - 1) (· = val)).toNat
    some (id + k, k)
  else search

/-- `at_with_hint(pos, hint)` -/
def atWithHint (pos hint : Nat) : Option (Bool × Nat) :=
  (lowerBoundHint x pos hint).bind (fun r => (bitAt x r.1 pos).map (fun b => (b, r.2)))

/-- `rank0(pos, hint)` and `rank1(pos, hint)` -/
def rankHint (b : Bool) (pos hint : Nat) : Option (Nat × Nat) :=
  (lowerBoundHint x pos hint).map (fun r => (if b = x.pivot then r.1 else wsub pos r.1, r.2))

/-- `select0(id, hint)` and `select1(id, hint)` -/
def selectHint (b : Bool) (id hint : Nat) : Option (Nat × Nat) :=
  if b = x.pivot then (x.val id).map (fun v => (v, hint)) else selectComplementHint x id hint

/-- `zero_seq_len(pos, hint)` and `one_seq_len(pos, hint)`: from here on the hint
    stands in for the index found. -/
def seqLenHint (b : Bool) (pos hint : Nat) : Option (Nat × Nat) :=
  (lowerBoundHint x pos hint).bind (fun r =>
    if b = x.pivot then pivotLen x r.2 pos
    else (complementLen x r.2 pos).map (fun len => (len, r.2)))

/-- `zero_seq_revlen(pos, hint)` and `one_seq_revlen(pos, hint)` -/
def seqRevlenHint (b : Bool) (pos hint : Nat) : Option (Nat × Nat) :=
  if pos = 0 then some (0, hint)
  else if b = x.pivot then
    (lowerBoundHint x (pos - 1) hint).bind (fun r => pivotRevlen x r.2 pos)
  else (lowerBoundHint x pos hint).bind (fun r =>
    (complementRevlen x r.2 pos).map (fun len => (len, r.2)))

/-- A hinted query: its value and the hint it leaves. -/
def hinted : Call → Nat → Option (Nat × Nat)
  | .is0 pos, hint => (atWithHint x pos hint).map (fun r => ((!r.1).toNat, r.2))
  | .is1 pos, hint => (atWithHint x pos hint).map (fun r => (r.1.toNat, r.2))
  | .rank0 pos, hint => rankHint x false pos hint
  | .rank1 pos, hint => rankHint x true pos hint
  | .select0 id, hint => selectHint x false id hint
  | .select1 id, hint => selectHint x true id hint
  | .zeroSeqLen pos, hint => seqLenHint x false pos hint
  | .oneSeqLen pos, hint => seqLenHint x true pos hint
  | .zeroSeqRevlen pos, hint => seqRevlenHint x false pos hint
  | .oneSeqRevlen pos, hint => seqRevlenHint x true pos hint

/-- The hint after a hinted query. -/
def leave (hint : Nat) (c : Call) : Option Nat := (hinted x c hint).map Prod.snd

/-! ## The probes around the hint -/

section Probes

variable {x : Few} {v : Nat → Nat} (hx : Layered x v) {k val : Nat}
include hx

/-- A probe looks at the stored value. -/
theorem Layered.probe (hk : k < x.n) (test : Nat → Bool) : x.probe k test = test (v k) := by
  rw [Few.probe, hx.val hk, any_some]

/-- **HINTED `lower_bound`**: it always returns the place.  The hint it leaves is the
    place too, unless the hint was on the last pivot and the value lies above it. -/
theorem lowerBoundHint_eq (val hint : Nat) : lowerBoundHint x val hint =
    some (firstGe v (x.n - 1) val,
      if hint + 1 = x.n ∧ v hint < val then hint else firstGe v (x.n - 1) val) := by
  have hn := hx.some_pivot
  have hle := hx.place_le v val
  have hlast := hx.lt_place val (k := x.n - 1) (by omega)
  generalize ht : firstGe v (x.n - 1) val = t at *
  -- a place read off next to the hint is left as the hint as well
  have hfound : ∀ k, t = k → ¬ (hint + 1 = x.n ∧ v hint < val) →
      some (k, k) = some (t, if hint + 1 = x.n ∧ v hint < val then hint else t) := by
    rintro k rfl hE
    rw [if_neg hE]
  rw [lowerBoundHint, lowerBound_eq hx val, ht]
  by_cases hlt : hint < x.n
  · have h0 := hx.lt_place val hlt
    have h1 := hx.lt_place val (k := hint - 1) (by omega)
    have h2 := hx.lt_place val (k := hint - 2) (by omega)
    simp only [hlt, if_true, hx.probe hlt, hx.probe (k := hint - 1) (by omega),
      hx.probe (k := hint - 2) (by omega), hx.probe hn, Bool.and_eq_true, decide_eq_true_eq]
    split
    · exact hfound _ (by omega) (by omega)
    split
    next hB =>
      have h3 := hx.lt_place val hB.1.1
      have hb := hB.2
      rw [hx.probe hB.1.1, decide_eq_true_eq] at hb
      exact hfound _ (by omega) (by omega)
    split
    · exact hfound _ (by omega) (by omega)
    split
    next hD =>
      obtain ⟨rfl, hD⟩ := hD
      exact hfound _ (by omega) (by omega)
    split
    · congr 2
      omega
    · rfl
  rw [if_neg hlt]
  simp only [hx.probe (k := x.n - 1) (by omega), Bool.and_eq_true, decide_eq_true_eq]
  split
  · refine hfound _ ?_ (by omega)
    by_cases heq : v (x.n - 1) = val
    · -- the last pivot itself: everything before it is below
      have hprev := hx.lt_place val (k := x.n - 2) (by omega)
      have := hx.mono (x.n - 2) (x.n - 1)
      simp only [heq, decide_true, Bool.toNat_true]
      omega
    · simp only [heq, decide_false, Bool.toNat_false]
      omega
  · exact hfound _ rfl (by omega)

/-- **HINTED `select_complement`**: with the hint behind the last pivot, the last two
    pivots adjacent and the complement asked for standing before both, one pivot too many
    counts as passed; in every other case the answer is the plain one. -/
theorem selectComplementHint_eq (id hint : Nat) :
    ∃ left, selectComplementHint x id hint =
      some (if hint = x.n ∧ 1 < x.n ∧ v (x.n - 1) = id + x.n ∧ v (x.n - 2) + 1 = v (x.n - 1)
        then id + (x.n - 1)
        else id + firstGe (fun k => v k - k) (x.n - 1) (id + 1), left) := by
  have hn := hx.some_pivot
  have hle := hx.place_le (fun k => v k - k) (id + 1)
  have hlast := hx.lt_passed id (k := x.n - 1) (by omega)
  have hfirst := hx.lt_passed id hn
  generalize ht : firstGe (fun k => v k - k) (x.n - 1) (id + 1) = t at *
  rw [selectComplementHint, selectComplement_eq hx id, ht, Option.map_some]
  -- inside, the hint's neighbours are tried before the search
  by_cases hlt : hint < x.n
  · have h0 := hx.lt_passed id hlt
    have h1 := hx.lt_passed id (k := hint - 1) (by omega)
    have h2 := hx.lt_passed id (k := hint - 2) (by omega)
    rw [ht] at h0 h1 h2
    rw [if_neg (fun h : hint = x.n ∧ _ => by omega)]
    simp only [hlt, if_true, hx.probe hlt, hx.probe (k := hint - 1) (by omega),
      hx.probe (k := hint - 2) (by omega), hx.probe hn, Bool.and_eq_true, decide_eq_true_eq]
    split
    · rw [show hint = t by omega]
      exact ⟨_, rfl⟩
    split
    next hB =>
      have h3 := hx.lt_passed id hB.1.1
      have hb := hB.2
      rw [hx.probe hB.1.1, decide_eq_true_eq] at hb
      rw [show hint + 1 = t by omega]
      exact ⟨_, rfl⟩
    split
    · rw [show hint - 1 = t by omega]
      exact ⟨_, rfl⟩
    split
    · rw [show x.n = t by omega]
      exact ⟨_, rfl⟩
    split
    · rw [show t = 0 by omega]
      exact ⟨_, rfl⟩
    · exact ⟨_, rfl⟩
  rw [if_neg hlt]
  simp only [hx.probe (k := x.n - 1) (by omega), Bool.and_eq_true, decide_eq_true_eq]
  -- the hint behind the last pivot has a case of its own
  by_cases hF : hint = x.n ∧ v (x.n - 1) ≤ id + hint
  · obtain ⟨rfl, hF⟩ := hF
    rw [if_pos ⟨rfl, hF⟩]
    refine ⟨_, congrArg some (Prod.ext ?_ rfl)⟩
    by_cases heq : v (x.n - 1) = id + x.n
    · -- the last pivot is the first not passed, or both of the last two are not
      have hprev := hx.lt_passed id (k := x.n - 2) (by omega)
      have hgap := hx.mono (x.n - 2) (x.n - 1)
      rw [ht] at hprev
      simp only [heq, decide_true, Bool.toNat_true]
      by_cases hadj : 1 < x.n ∧ v (x.n - 2) + 1 = id + x.n
      · rw [if_pos ⟨trivial, hadj.1, trivial, hadj.2⟩]
      · rw [if_neg (fun h => hadj ⟨h.2.1, h.2.2.2⟩)]
        omega
    · simp only [heq, decide_false, Bool.toNat_false, false_and, and_false, if_false]
      omega
  · rw [if_neg hF, if_neg (fun h => hF ⟨h.1, by omega⟩)]
    exact ⟨_, rfl⟩

/-! ## Runs of pivots and of complements -/

theorem Layered.val_le (hk : k ≤ x.n) : ∃ w, x.val k = some w := by
  rcases Nat.lt_or_eq_of_le hk with h | rfl
  · exact ⟨v k, hx.val h⟩
  · obtain ⟨w, -, hw⟩ := hx.behind
    exact ⟨w, hw⟩

/-- The loop upwards ends, at the latest at the entry behind the pivots. -/
theorem runUp_total (fuel : Nat) {idx : Nat} (cnt : Nat) (hidx : idx < x.n)
    (hf : x.n - idx < fuel) : ∃ r, runUp x fuel idx (v idx) cnt = some r := by
  induction fuel generalizing idx cnt with
  | zero => omega
  | succ fuel ih =>
    rw [runUp]
    split
    · by_cases hnext : idx + 1 < x.n
      · rw [hx.val hnext, bind_some]
        split
        · exact ih (cnt + 1) hnext (by omega)
        · exact ⟨_, rfl⟩
      · -- behind the last pivot stands nothing above it
        obtain ⟨w, hw, hval⟩ := hx.behind
        have hmono := hx.mono_le (Nat.zero_le idx) hidx
        rw [show idx + 1 = x.n by omega, hval, bind_some, if_neg (by omega)]
        exact ⟨_, rfl⟩
    · exact ⟨_, rfl⟩

/-- The loop downwards returns. -/
theorem runDown_total (idx now cnt : Nat) (hidx : idx ≤ x.n) :
    ∃ r, runDown x idx now cnt = some r := by
  induction idx generalizing now cnt with
  | zero => exact ⟨_, rfl⟩
  | succ idx ih =>
    rw [runDown, hx.val hidx, bind_some]
    split
    · exact ih _ _ (by omega)
    · exact ⟨_, rfl⟩

/-- Behind all pivots the place is their number. -/
theorem Layered.place_of_above (h : v (x.n - 1) < val) : firstGe v (x.n - 1) val = x.n := by
  have hn := hx.some_pivot
  have := (hx.lt_place val (k := x.n - 1) (by omega)).mpr h
  have := hx.place_le v val
  omega

/-- No entry behind the pivots is mistaken for one above them. -/
theorem Layered.behind_ne (h : v (x.n - 1) < val) : ∃ w, x.val x.n = some w ∧ w ≠ val := by
  obtain ⟨w, hw, hval⟩ := hx.behind
  have := hx.mono_le (Nat.zero_le (x.n - 1)) (by have := hx.some_pivot; omega)
  exact ⟨w, hval, by omega⟩

end Probes

/-! ## One hinted call against its plain form -/

/-- The hint is on the last pivot and the position above it. -/
def BeyondLast (n : Nat) (v : Nat → Nat) (hint pos : Nat) : Prop := hint + 1 = n ∧ v hint < pos

theorem BeyondLast.above {n : Nat} {v : Nat → Nat} {hint : Nat} (h : BeyondLast n v hint pos) :
    v (n - 1) < pos := by
  obtain ⟨h1, h2⟩ := h
  rwa [← h1]

/-- The hint is behind the last pivot, and the complement asked for would follow the last
    pivot but for a pivot adjacent to it. -/
def CrowdedLast (n : Nat) (v : Nat → Nat) (hint id : Nat) : Prop :=
  hint = n ∧ 1 < n ∧ v (n - 1) = id + n ∧ v (n - 2) + 1 = v (n - 1)

/-- What the hint must not be before a call, for pivots `v 0, …, v (n - 1)` of value
    `pivot`: only queries for complements are sensitive. -/
def HintOk (pivot : Bool) (n : Nat) (v : Nat → Nat) (hint : Nat) : Call → Prop
  | .is0 _ => True
  | .is1 _ => True
  | .rank0 _ => True
  | .rank1 _ => True
  | .select0 id => pivot = true → ¬ CrowdedLast n v hint id
  | .select1 id => pivot = false → ¬ CrowdedLast n v hint id
  | .zeroSeqLen pos => pivot = true → ¬ BeyondLast n v hint pos
  | .oneSeqLen pos => pivot = false → ¬ BeyondLast n v hint pos
  | .zeroSeqRevlen pos => pivot = true → ¬ BeyondLast n v hint pos
  | .oneSeqRevlen pos => pivot = false → ¬ BeyondLast n v hint pos

/-- The arguments a query is made for, by the numbers of zeros and ones. -/
def Call.InRange (num0 num1 : Nat) : Call → Prop
  | .is0 pos => pos < num0 + num1
  | .is1 pos => pos < num0 + num1
  | .rank0 pos => pos ≤ num0 + num1
  | .rank1 pos => pos ≤ num0 + num1
  | .select0 id => id < num0
  | .select1 id => id < num1
  | .zeroSeqLen pos => pos < num0 + num1
  | .oneSeqLen pos => pos < num0 + num1
  | .zeroSeqRevlen pos => pos ≤ num0 + num1
  | .oneSeqRevlen pos => pos ≤ num0 + num1

/-- Both forms answer, and the answers are equal exactly if `ok`. -/
def Agrees (a : Option Nat) (b : Option (Nat × Nat)) (ok : Prop) : Prop :=
  ∃ u w left, a = some u ∧ b = some (w, left) ∧ (w = u ↔ ok)

theorem Agrees.same {a : Option Nat} {b : Option (Nat × Nat)} {ok : Prop} {u left : Nat}
    (ha : a = some u) (hb : b = some (u, left)) (hok : ok) : Agrees a b ok :=
  ⟨u, u, left, ha, hb, iff_of_true rfl hok⟩

theorem other_of_ne {b : Bool} (h : ¬ b = c) : c = !b := by
  revert h
  cases b <;> cases c <;> decide

theorem ne_other {b : Bool} (h : b = c) : c ≠ !b := by
  subst h
  cases b <;> decide

section Step

variable {x : Few} {v : Nat → Nat} (hx : Layered x v) {calls : List Call}
include hx

/-- Reading a bit with any hint. -/
theorem bitAt_agrees (pos hint : Nat) (f : Bool → Nat) :
    Agrees ((lowerBound x pos).bind (fun idx => (bitAt x idx pos).map f))
      ((atWithHint x pos hint).map (fun r => (f r.1, r.2))) True := by
  obtain ⟨w, hw⟩ := hx.val_le (hx.place_le v pos)
  have hbit : bitAt x (firstGe v (x.n - 1) pos) pos =
      some (if x.pivot then decide (w = pos) else decide (w ≠ pos)) := by
    rw [bitAt, hw, map_some]
  rw [lowerBound_eq hx pos, bind_some, atWithHint, lowerBoundHint_eq hx pos hint, bind_some, hbit]
  exact Agrees.same rfl rfl trivial

/-- `rank` with any hint. -/
theorem rank_agrees (b : Bool) (pos hint : Nat) :
    Agrees (rank x b pos) (rankHint x b pos hint) True := by
  rw [rank, lowerBound_eq hx pos, rankHint, lowerBoundHint_eq hx pos hint]
  exact Agrees.same rfl rfl trivial

/-- `select` with a hint, but for a crowded last pivot. -/
theorem select_agrees (b : Bool) (id hint : Nat) (hid : b = x.pivot → id < x.n) :
    Agrees (select x b id) (selectHint x b id hint)
      (x.pivot = !b → ¬ CrowdedLast x.n v hint id) := by
  by_cases hb : b = x.pivot
  · rw [select, selectHint, if_pos hb, if_pos hb, hx.val (hid hb)]
    exact Agrees.same rfl rfl (fun h => absurd h (ne_other hb))
  obtain ⟨left, hleft⟩ := selectComplementHint_eq hx id hint
  rw [select, selectHint, if_neg hb, if_neg hb]
  refine ⟨_, _, left, selectComplement_eq hx id, hleft, ?_⟩
  have hother := other_of_ne hb
  rw [forall_prop_of_true hother]
  by_cases hcrowd : CrowdedLast x.n v hint id
  · -- neither of the two adjacent pivots is passed
    have hprev := hx.lt_passed id (k := x.n - 2) (by have := hcrowd.2.1; omega)
    rw [if_pos (show hint = x.n ∧ 1 < x.n ∧ _ from hcrowd)]
    refine iff_of_false ?_ (not_not_intro hcrowd)
    obtain ⟨-, h2, h3, h4⟩ := hcrowd
    omega
  · rw [if_neg (show ¬ (hint = x.n ∧ 1 < x.n ∧ _) from hcrowd)]
    exact iff_of_true rfl hcrowd

/-- **A RUN OF PIVOTS** is looked up from its first or last position `target`; above all pivots
    there is none, wherever the hint is. -/
theorem pivotRun_agrees (loop : Nat → Nat → Option (Nat × Nat)) (target hint : Nat)
    (hloop : ∀ idx, idx < x.n → ∃ r, loop idx (v idx) = some r) {ok : Prop} (hok : ok) :
    let find := fun idx =>
      (x.val idx).bind (fun w => if w ≠ target then some (0, idx) else loop idx w)
    Agrees ((find (firstGe v (x.n - 1) target)).map Prod.fst)
      (find (if hint + 1 = x.n ∧ v hint < target then hint
        else firstGe v (x.n - 1) target)) ok := by
  intro find
  have hnone : ∀ idx w, x.val idx = some w → w ≠ target → find idx = some (0, idx) := by
    intro idx w hw hne
    show (x.val idx).bind _ = _
    rw [hw, bind_some, if_pos hne]
  by_cases habove : v (x.n - 1) < target
  · obtain ⟨w, hw, hne⟩ := hx.behind_ne habove
    rw [hx.place_of_above habove, hnone _ _ hw hne]
    split
    · rename_i hE
      exact Agrees.same rfl (hnone _ _ (hx.val (by omega)) hE.2.ne) hok
    · exact Agrees.same rfl (hnone _ _ hw hne) hok
  have hlt : firstGe v (x.n - 1) target < x.n := by
    have hn := hx.some_pivot
    have := hx.place_le v target
    have := hx.lt_place target (k := x.n - 1) (by omega)
    omega
  rw [if_neg (fun hE : hint + 1 = x.n ∧ _ => habove (BeyondLast.above hE))]
  by_cases hne : v (firstGe v (x.n - 1) target) ≠ target
  · rw [hnone _ _ (hx.val hlt) hne]
    exact Agrees.same rfl rfl hok
  · obtain ⟨r, hr⟩ := hloop _ hlt
    have hfind : find (firstGe v (x.n - 1) target) = some r := by
      show (x.val _).bind _ = _
      rw [hx.val hlt, bind_some, if_neg hne, hr]
    rw [hfind]
    exact Agrees.same rfl rfl hok

/-- The length of a run with a hint, unless that is beyond the last pivot. -/
theorem seqLen_agrees (b : Bool) (hint : Nat) (hpos : pos < x.size) :
    Agrees (seqLen x b pos) (seqLenHint x b pos hint)
      (x.pivot = !b → ¬ BeyondLast x.n v hint pos) := by
  have hword := hx.word
  have hle := hx.place_le v pos
  rw [seqLen, lowerBound_eq hx pos, bind_some, seqLenHint, lowerBoundHint_eq hx pos hint, bind_some]
  by_cases hb : b = x.pivot
  · have hlen : x.n ≤ x.items.length := by simpa using hx.length_le hx.some_layer
    rw [if_pos hb, if_pos hb]
    exact pivotRun_agrees hx (fun idx w => runUp x (x.items.length + 1) idx w 1) pos hint
      (fun idx hidx => runUp_total hx _ 1 hidx (by omega)) (fun h => absurd h (ne_other hb))
  rw [if_neg hb, if_neg hb]
  have hother := other_of_ne hb
  by_cases hE : BeyondLast x.n v hint pos
  · -- the last pivot minus a position above it wraps round
    have habove := hE.above
    rw [if_pos (show hint + 1 = x.n ∧ _ from hE), hx.place_of_above habove, complementLen,
      if_pos rfl, complementLen, if_neg (by have := hE.1; omega),
      hx.val (by have := hE.1; omega)]
    refine ⟨_, _, _, rfl, rfl, iff_of_false ?_ (fun h => h hother hE)⟩
    show ¬ wsub (v hint) pos = wsub x.size pos
    rw [wsub_wrap hE.2, wsub_eq hpos.le]
    omega
  rw [if_neg (show ¬ (hint + 1 = x.n ∧ _) from hE)]
  obtain ⟨len, hlen⟩ : ∃ len, complementLen x (firstGe v (x.n - 1) pos) pos = some len := by
    rw [complementLen]
    split
    · exact ⟨_, rfl⟩
    · rw [hx.val (by omega)]
      exact ⟨_, rfl⟩
  rw [hlen]
  exact Agrees.same rfl rfl (fun _ => hE)

/-- The same backwards. -/
theorem seqRevlen_agrees (b : Bool) (pos hint : Nat) :
    Agrees (seqRevlen x b pos) (seqRevlenHint x b pos hint)
      (x.pivot = !b → ¬ BeyondLast x.n v hint pos) := by
  have hn := hx.some_pivot
  by_cases h0 : pos = 0
  · subst h0
    exact Agrees.same rfl rfl (fun _ h => absurd h.2 (Nat.not_lt_zero _))
  rw [seqRevlen, if_neg h0, seqRevlenHint, if_neg h0]
  by_cases hb : b = x.pivot
  · rw [if_pos hb, if_pos hb, lowerBound_eq hx (pos - 1), lowerBoundHint_eq hx (pos - 1) hint]
    exact pivotRun_agrees hx (fun idx w => runDown x idx w 1) (pos - 1) hint
      (fun idx hidx => runDown_total hx idx (v idx) 1 hidx.le) (fun h => absurd h (ne_other hb))
  have hother := other_of_ne hb
  have hle := hx.place_le v pos
  rw [if_neg hb, if_neg hb, lowerBound_eq hx pos, bind_some,
    lowerBoundHint_eq hx pos hint, bind_some]
  by_cases hE : BeyondLast x.n v hint pos
  · have habove := hE.above
    rw [if_pos (show hint + 1 = x.n ∧ _ from hE), hx.place_of_above habove, complementRevlen,
      if_neg (by omega), hx.val (by omega), map_some, wsub_eq (by omega), complementRevlen]
    dsimp only
    by_cases hzero : hint = 0
    · -- a single pivot: the whole way to it counts as complements
      rw [if_pos hzero]
      refine ⟨_, _, _, rfl, rfl, iff_of_false ?_ (fun h => h hother hE)⟩
      omega
    · have hlast := hE.1
      have hmono := hx.mono (hint - 1) (x.n - 1) (by omega) (by omega)
      rw [if_neg hzero, hx.val (by omega), map_some, wsub_eq (by omega)]
      refine ⟨_, _, _, rfl, rfl, iff_of_false ?_ (fun h => h hother hE)⟩
      omega
  rw [if_neg (show ¬ (hint + 1 = x.n ∧ _) from hE)]
  obtain ⟨len, hlen⟩ :
      ∃ len, complementRevlen x (firstGe v (x.n - 1) pos) pos = some len := by
    rw [complementRevlen]
    split
    · exact ⟨_, rfl⟩
    · rw [hx.val (by omega)]
      exact ⟨_, rfl⟩
  rw [hlen]
  exact Agrees.same rfl rfl (fun _ => hE)

/-- **ONE HINTED CALL**: it answers as its plain form does exactly if the hint before
    the call is none of the bad ones. -/
theorem hinted_agrees {c : Call} (hint : Nat) (hc : c.InRange x.num0 x.num1) :
    Agrees (plain x c) (hinted x c hint) (HintOk x.pivot x.n v hint c) := by
  have hcount : ∀ b, b = x.pivot → x.n = if b then x.num1 else x.num0 := by
    rintro b rfl
    rfl
  cases c with
  | is0 pos => exact bitAt_agrees hx pos hint (fun b => (!b).toNat)
  | is1 pos => exact bitAt_agrees hx pos hint Bool.toNat
  | rank0 pos => exact rank_agrees hx false pos hint
  | rank1 pos => exact rank_agrees hx true pos hint
  | select0 id => exact select_agrees hx false id hint (fun h => (hcount false h).symm ▸ hc)
  | select1 id => exact select_agrees hx true id hint (fun h => (hcount true h).symm ▸ hc)
  | zeroSeqLen pos => exact seqLen_agrees hx false hint hc
  | oneSeqLen pos => exact seqLen_agrees hx true hint hc
  | zeroSeqRevlen pos => exact seqRevlen_agrees hx false pos hint
  | oneSeqRevlen pos => exact seqRevlen_agrees hx true pos hint

/-! ## Runs of hinted calls -/

/-- Calls in range never leave the hint undefined. -/
theorem leave_total (hcalls : ∀ c ∈ calls, c.InRange x.num0 x.num1) (hint : Nat) :
    ∃ left, run (leave x) hint calls = some left := by
  refine run_total (fun h c hc => ?_) hint
  obtain ⟨u, w, left, -, hw, -⟩ := hinted_agrees hx h (hcalls c hc)
  exact ⟨left, by rw [leave, hw, map_some]⟩

/-- **A RUN OF HINTED CALLS** sharing one hint answers as the plain calls do, exactly if
    the hint before each call is none of the bad ones. -/
theorem hinted_run_iff (hcalls : ∀ c ∈ calls, c.InRange x.num0 x.num1) (hint : Nat) :
    (∀ k (hk : k < calls.length), ∃ h u left, run (leave x) hint (calls.take k) = some h ∧
        hinted x calls[k] h = some (u, left) ∧ plain x calls[k] = some u) ↔
    ∀ k (hk : k < calls.length) h, run (leave x) hint (calls.take k) = some h →
      HintOk x.pivot x.n v h calls[k] := by
  constructor
  · intro hall k hk h hrun
    obtain ⟨h', u, left, hrun', hhint, hplain⟩ := hall k hk
    obtain rfl := mem_unique hrun' hrun
    obtain ⟨u', w, left', ha, hb, hiff⟩ := hinted_agrees hx h' (hcalls _ (getElem_mem hk))
    refine hiff.mp ?_
    have hu : u' = u := mem_unique ha hplain
    have hw : (w, left') = (u, left) := mem_unique hb hhint
    rw [hu]
    exact congrArg Prod.fst hw
  · intro hok k hk
    obtain ⟨h, hrun⟩ := leave_total hx
      (fun c hc => hcalls c (mem_of_mem_take hc)) hint
    obtain ⟨u, w, left, ha, hb, hiff⟩ := hinted_agrees hx h (hcalls _ (getElem_mem hk))
    refine ⟨h, w, left, hrun, hb, ?_⟩
    rw [hiff.mpr (hok k hk h hrun)]
    exact ha

end Step

/-- **HINTED CALLS ON A BUILT STRUCTURE**: for every bit sequence with a pivot, every
    first hint and all calls in range, each hinted call answers as its plain form exactly
    if, before each call, the hint is neither on the last pivot below the position of a
    run of complements, nor behind the last of two adjacent pivots that the complement
    selected stands before. -/
theorem hinted_calls_agree_iff {W : Nat} {pivot : Bool} (rev : Bool) {B : List Bool}
    (hpiv : pivot ∈ B) (hword : B.length < 2 ^ 64)
    (hfit : ∀ k, B[k]? = some true ∨ B[k]? = some pivot → k < 256 ^ W) (hint : Nat)
    {calls : List Call} (hcalls : ∀ c ∈ calls, c.InRange (B.count false) (B.count true)) :
    ∃ x, build W pivot rev B = some x ∧
      ((∀ k (hk : k < calls.length), ∃ h u left,
          run (leave x) hint (calls.take k) = some h ∧
          hinted x calls[k] h = some (u, left) ∧ plain x calls[k] = some u) ↔
        ∀ k (hk : k < calls.length) h, run (leave x) hint (calls.take k) = some h →
          HintOk pivot (B.count pivot) (table (positions pivot 0 B)) h calls[k]) := by
  obtain ⟨x, hbuild, rfl, h0, h1, hx⟩ := build_layered rev hpiv hword hfit
  refine ⟨x, hbuild, ?_⟩
  have hn : x.n = B.count x.pivot := by
    rw [Few.n, h0, h1]
    cases x.pivot <;> rfl
  rw [← h0, ← h1] at hcalls
  rw [← hn]
  exact hinted_run_iff hx hcalls hint

/-- Calls with hints on five bits. -/
theorem hinted_calls_agree_five : true ∈ [false, true, false, true, false] ∧
    ∃ x, build 1 true false [false, true, false, true, false] = some x ∧
      ((∀ k (hk : k < [Call.rank1 4, Call.zeroSeqLen 2].length), ∃ h u left,
          run (leave x) 0 ([Call.rank1 4, Call.zeroSeqLen 2].take k) = some h ∧
          hinted x [Call.rank1 4, Call.zeroSeqLen 2][k] h = some (u, left) ∧
          plain x [Call.rank1 4, Call.zeroSeqLen 2][k] = some u) ↔
        ∀ k (hk : k < [Call.rank1 4, Call.zeroSeqLen 2].length) h,
          run (leave x) 0 ([Call.rank1 4, Call.zeroSeqLen 2].take k) = some h →
          HintOk true 2 (table [1, 3]) h [Call.rank1 4, Call.zeroSeqLen 2][k]) := by
  refine ⟨by decide, hinted_calls_agree_iff false (by decide) (by simp) ?_ 0 ?_⟩
  · intro k hk
    have hlt : k < 5 := by
      rcases hk with h | h
      · exact (List.getElem_of_getElem? h).1
      · exact (List.getElem_of_getElem? h).1
    omega
  · simp [Call.InRange]

/-- One pivot at place 3 of seven: the hint stays on it, and the zeros from place 5 on
    are counted from the pivot, round the end of the number range. -/
theorem hinted_zero_seq_len_fails :
    ∃ x, build 1 true false [false, false, false, true, false, false, false] = some x ∧
      (Call.zeroSeqLen 5).InRange x.num0 x.num1 ∧
      hinted x (.zeroSeqLen 5) 0 = some (18446744073709551614, 0) ∧
      plain x (.zeroSeqLen 5) = some 2 := by
  obtain ⟨x, hbuild, hrest⟩ := bind_eq_some_iff.mp
    (show (build 1 true false [false, false, false, true, false, false, false]).bind (fun x =>
      (hinted x (.zeroSeqLen 5) 0).bind (fun r => (plain x (.zeroSeqLen 5)).map (fun u =>
        (x.num0, x.num1, r, u)))) = some (6, 1, (18446744073709551614, 0), 2) by decide +kernel)
  obtain ⟨r, hr, hrest⟩ := bind_eq_some_iff.mp hrest
  obtain ⟨u, hu, heq⟩ := map_eq_some_iff.mp hrest
  obtain ⟨h0, h1, rfl, rfl⟩ : x.num0 = 6 ∧ x.num1 = 1 ∧ r = (18446744073709551614, 0) ∧ u = 2 := by
    simpa using heq
  refine ⟨x, hbuild, ?_, hr, hu⟩
  show 5 < x.num0 + x.num1
  omega

end RankSelectFew
