import Mathlib.Algebra.Ring.Nat
import Mathlib.Data.List.Basic
import ToplingArk.RunProofs

/-! # Distributing items over ranges of one array

    The items with key `t` get the places from `index[t]` to `index[t+1]` of one array, in
    their order: the keys are counted, the counts are added up, and every item is put at the
    place its key has reached.  Counters have a fixed width and wrap around. -/

namespace Distribute

open List Option Nat

variable {β : Type} {t : Nat} {index : List Nat}

/-- One more, in a counter of `w` bits. -/
def bump (w : Nat) (l : List Nat) (i : Nat) : Option (List Nat) :=
  l[i]?.map (fun c => l.set i ((c + 1) % 2 ^ w))

/-- The items are counted, each behind the place of its key. -/
def tally (w n : Nat) (items : List (Nat × β)) : Option (List Nat) :=
  Runs.run (fun l item => bump w l (item.1 + 1)) (replicate (n + 1) 0) items

/-- Every count is added to the sum before it. -/
def sums (w : Nat) : Nat → List Nat → List Nat
  | _, [] => []
  | acc, c :: l => (c + acc) % 2 ^ w :: sums w ((c + acc) % 2 ^ w) l

/-- An item is put at the place its key has reached. -/
def put (w : Nat) (s : List Nat × List (Option β)) (item : Nat × β) :
    Option (List Nat × List (Option β)) :=
  s.1[item.1]?.bind (fun pos =>
    if pos < s.2.length then
      (bump w s.1 item.1).map (fun l => (l, s.2.set pos (some item.2)))
    else none)

/-- The index and the array; nothing is written to a place without an item. -/
def distribute (w n : Nat) (items : List (Nat × β)) : Option (List Nat × List (Option β)) :=
  (tally w n items).bind (fun counts =>
    let index := sums w 0 counts
    index.getLast?.bind (fun total =>
      (Runs.run (put w) (index, replicate total none) items).map (fun s => (index, s.2))))

/-- The number of items with a smaller key. -/
def below (items : List (Nat × β)) (t : Nat) : Nat := items.countP (fun item => decide (item.1 < t))

/-- The items of a key. -/
def ofKey (items : List (Nat × β)) (t : Nat) : List β :=
  (items.filter (fun item => decide (item.1 = t))).map Prod.snd

variable {w n : Nat} {items : List (Nat × β)}

/-! ## Counting -/

/-- Below the next key there are those of this key too. -/
theorem below_succ (items : List (Nat × β)) (t : Nat) :
    below items (t + 1) = below items t + (ofKey items t).length := by
  unfold below ofKey
  rw [length_map]
  induction items with
  | nil => rfl
  | cons item items ih =>
    rw [countP_cons, ih]
    rcases lt_trichotomy item.1 t with h | h | h
    · simp [h, lt_succ_of_lt h, Nat.ne_of_lt h]
      omega
    · simp [h]
      omega
    · have h1 : ¬ item.1 < t + 1 := by omega
      have h2 : ¬ item.1 < t := by omega
      have h3 : ¬ item.1 = t := by omega
      simp [h1, h2, h3]

theorem below_le (items : List (Nat × β)) (t : Nat) : below items t ≤ items.length :=
  countP_le_length

/-- More items are below a greater key. -/
theorem below_mono (items : List (Nat × β)) {t' : Nat} (h : t ≤ t') :
    below items t ≤ below items t' := by
  induction h with
  | refl => exact le_rfl
  | step _ ih =>
    rw [below_succ]
    omega

theorem ofKey_snoc (items : List (Nat × β)) (item : Nat × β) (t : Nat) :
    ofKey (items ++ [item]) t = ofKey items t ++ (if item.1 = t then [item.2] else []) := by
  unfold ofKey
  by_cases h : item.1 = t
  · simp [h]
  · simp [h]

/-- **THE COUNTS** of the keys, in the width of the counters. -/
theorem tally_spec (w : Nat) (hkeys : ∀ item ∈ items, item.1 < n) :
    ∃ counts, tally w n items = some counts ∧ counts.length = n + 1 ∧ counts[0]? = some 0 ∧
      ∀ t, t < n → counts[t + 1]? = some ((ofKey items t).length % 2 ^ w) := by
  induction items using reverseRecOn with
  | nil =>
    refine ⟨replicate (n + 1) 0, rfl, length_replicate, rfl, fun t ht => ?_⟩
    rw [getElem?_replicate, if_pos (by omega)]
    show some 0 = some (0 % 2 ^ w)
    rw [zero_mod]
  | append_singleton items item ih =>
    obtain ⟨counts, hrun, hlen, hzero, hcounts⟩ := ih
      (fun x hx => hkeys x (mem_append_left _ hx))
    have hitem := hkeys item (mem_append_right _ (mem_singleton_self _))
    have hlt : item.1 + 1 < counts.length := by omega
    refine ⟨counts.set (item.1 + 1) (((ofKey items item.1).length + 1) % 2 ^ w), ?_, ?_, ?_, ?_⟩
    · unfold tally at hrun ⊢
      rw [Runs.run_snoc, hrun, bind_some]
      unfold bump
      rw [hcounts item.1 hitem, map_some, mod_add_mod]
    · rw [length_set]
      exact hlen
    · rw [getElem?_set_ne (by omega)]
      exact hzero
    intro t ht
    rw [ofKey_snoc]
    by_cases heq : item.1 = t
    · subst heq
      rw [getElem?_set_self hlt, if_pos rfl, length_append]
      rfl
    · rw [getElem?_set_ne (by omega), if_neg heq, append_nil]
      exact hcounts t ht

theorem sums_length (w acc : Nat) (l : List Nat) : (sums w acc l).length = l.length := by
  induction l generalizing acc with
  | nil => rfl
  | cons c l ih => exact congrArg succ (ih _)

/-- **THE SUMS** of counts. -/
theorem sums_spec (w acc : Nat) (l : List Nat) :
    ∀ i, i < l.length → (sums w acc l)[i]? = some ((acc + (l.take (i + 1)).sum) % 2 ^ w) := by
  induction l generalizing acc with
  | nil => exact fun i hi => absurd hi (not_lt_zero i)
  | cons c l ih =>
    intro i hi
    show ((c + acc) % 2 ^ w :: sums w ((c + acc) % 2 ^ w) l)[i]? = _
    cases i with
    | zero =>
      rw [add_comm c acc]
      simp
    | succ i =>
      rw [getElem?_cons_succ, ih _ i (by simpa using hi), take_succ_cons,
        sum_cons, mod_add_mod, add_comm c acc, add_assoc]

/-- The sums of the counters are the items below, up to wrapping. -/
theorem take_counts {counts : List Nat} (hzero : counts[0]? = some 0)
    (hcounts : ∀ t, t < n → counts[t + 1]? = some ((ofKey items t).length % 2 ^ w)) :
    ∀ t, t ≤ n → (counts.take (t + 1)).sum % 2 ^ w = below items t % 2 ^ w := by
  intro t
  induction t with
  | zero =>
    intro _
    have hnone : below items 0 = 0 := by
      unfold below
      simp
    rw [take_add_one, hzero, hnone]
    rfl
  | succ t ih =>
    intro ht
    rw [take_add_one, hcounts t ht, sum_append_nat, below_succ, add_mod, ih (by omega)]
    simp

/-- All items are below the last key. -/
theorem below_all (hkeys : ∀ item ∈ items, item.1 < n) : below items n = items.length := by
  unfold below
  rw [countP_eq_length]
  intro item hitem
  exact decide_eq_true (hkeys item hitem)

/-- **THE INDEX**: the items with smaller keys, in the width of the counters. -/
theorem index_spec (w : Nat) (hkeys : ∀ item ∈ items, item.1 < n) :
    ∃ counts, tally w n items = some counts ∧
      (∀ t, t ≤ n → (sums w 0 counts)[t]? = some (below items t % 2 ^ w)) ∧
      (sums w 0 counts).getLast? = some (items.length % 2 ^ w) := by
  obtain ⟨counts, htally, hlen, hzero, hcounts⟩ := tally_spec w hkeys
  have hindex : ∀ t, t ≤ n → (sums w 0 counts)[t]? = some (below items t % 2 ^ w) := by
    intro t ht
    rw [sums_spec w 0 counts t (by omega), Nat.zero_add, take_counts hzero hcounts t ht]
  refine ⟨counts, htally, hindex, ?_⟩
  rw [getLast?_eq_getElem?, sums_length, hlen, Nat.add_sub_cancel, hindex n le_rfl,
    below_all hkeys]

/-! ## Placing -/

/-- The items of `done` are at their places. -/
structure Placed (items done : List (Nat × β)) (n : Nat) (reached : List Nat)
    (data : List (Option β)) : Prop where
  length : data.length = items.length
  reached : ∀ t, t < n → reached[t]? = some (below items t + (ofKey done t).length)
  placed : ∀ t j x, t < n → (ofKey done t)[j]? = some x →
    data[below items t + j]? = some (some x)

theorem ofKey_append_le (done rest : List (Nat × β)) (t : Nat) :
    (ofKey done t).length ≤ (ofKey (done ++ rest) t).length := by
  unfold ofKey
  rw [filter_append, map_append, length_append]
  exact le_add_right _ _

/-- **ONE ITEM** is put behind the earlier ones with its key. -/
theorem Placed.put {done rest : List (Nat × β)} {item : Nat × β} {reached : List Nat}
    {data : List (Option β)} (hitems : items = done ++ item :: rest)
    (hkeys : ∀ item ∈ items, item.1 < n) (hfits : items.length < 2 ^ w)
    (h : Placed items done n reached data) :
    ∃ reached' data', put w (reached, data) item = some (reached', data') ∧
      Placed items (done ++ [item]) n reached' data' := by
  have hmem : item ∈ items := by
    rw [hitems]
    exact mem_append_right _ mem_cons_self
  have hitem := hkeys item hmem
  have hpos := h.reached item.1 hitem
  -- the place is in the range of the key
  have hmore : (ofKey done item.1).length < (ofKey items item.1).length := by
    have hle := ofKey_append_le (done ++ [item]) rest item.1
    rw [ofKey_snoc, if_pos rfl, length_append, append_assoc] at hle
    rw [hitems]
    exact hle
  have hnext := below_succ items item.1
  have hall := below_le items (item.1 + 1)
  have hlt : below items item.1 + (ofKey done item.1).length < data.length := by
    rw [h.length]
    omega
  have hin : item.1 < reached.length := (List.getElem_of_getElem? hpos).1
  refine ⟨reached.set item.1 (below items item.1 + (ofKey done item.1).length + 1),
    data.set (below items item.1 + (ofKey done item.1).length) (some item.2), ?_, ?_⟩
  · unfold Distribute.put bump
    rw [hpos, bind_some, if_pos hlt, map_some, map_some, mod_eq_of_lt (by omega)]
  refine { length := ?_, reached := ?_, placed := ?_ }
  · rw [length_set]
    exact h.length
  · intro t ht
    rw [ofKey_snoc]
    by_cases heq : item.1 = t
    · subst heq
      rw [getElem?_set_self hin, if_pos rfl, length_append]
      rfl
    · rw [getElem?_set_ne heq, if_neg heq, append_nil]
      exact h.reached t ht
  intro t j x ht hx
  rw [ofKey_snoc] at hx
  by_cases heq : item.1 = t
  · subst heq
    rw [if_pos rfl] at hx
    by_cases hj : j < (ofKey done item.1).length
    · rw [getElem?_append_left hj] at hx
      rw [getElem?_set_ne (by omega)]
      exact h.placed item.1 j x ht hx
    · rw [getElem?_append_right (not_lt.mp hj)] at hx
      obtain ⟨hzero, hval⟩ := List.getElem_of_getElem? hx
      rw [length_singleton] at hzero
      have hj' : j = (ofKey done item.1).length := by omega
      subst hj'
      rw [getElem?_set_self hlt, ← hval]
      simp
  rw [if_neg heq, append_nil] at hx
  -- the ranges of different keys are apart
  have hj := (List.getElem_of_getElem? hx).1
  have hjt : j < (ofKey items t).length := by
    have := ofKey_append_le done (item :: rest) t
    rw [← hitems] at this
    omega
  have hnextt := below_succ items t
  have hne : below items item.1 + (ofKey done item.1).length ≠ below items t + j := by
    rcases lt_or_gt_of_ne heq with hlt' | hgt
    · have := below_mono items (show item.1 + 1 ≤ t from hlt')
      omega
    · have := below_mono items (show t + 1 ≤ item.1 from hgt)
      omega
  rw [getElem?_set_ne hne]
  exact h.placed t j x ht hx

/-- The loop that places the items, from any point on. -/
theorem placed_run (hkeys : ∀ item ∈ items, item.1 < n) (hfits : items.length < 2 ^ w)
    (hindex : ∀ t, t ≤ n → index[t]? = some (below items t % 2 ^ w)) :
    ∀ done rest, items = done ++ rest →
      ∃ reached data, Runs.run (put w) (index, replicate items.length none) done =
        some (reached, data) ∧ Placed items done n reached data := by
  intro done
  induction done using reverseRecOn with
  | nil =>
    intro _ _
    refine ⟨index, _, rfl, { length := length_replicate, reached := ?_, placed := ?_ }⟩
    · intro t ht
      rw [hindex t (le_of_lt ht),
        mod_eq_of_lt (lt_of_le_of_lt (below_le items t) hfits)]
      rfl
    · intro t j x _ hx
      cases hx
  | append_singleton done item ih =>
    intro rest hitems
    rw [append_assoc] at hitems
    obtain ⟨reached, data, hrun, hplaced⟩ := ih _ hitems
    obtain ⟨reached', data', hput, hplaced'⟩ := hplaced.put hitems hkeys hfits
    exact ⟨reached', data', by rw [Runs.run_snoc, hrun, bind_some, hput], hplaced'⟩

/-- **DISTRIBUTING** gives every key the range with its items. -/
theorem distribute_spec (hkeys : ∀ item ∈ items, item.1 < n) (hfits : items.length < 2 ^ w) :
    ∃ index data, distribute w n items = some (index, data) ∧ data.length = items.length ∧
      ∀ t, t < n → index[t]? = some (below items t) ∧
        index[t + 1]? = some (below items t + (ofKey items t).length) ∧
        (data.drop (below items t)).take (ofKey items t).length = (ofKey items t).map some := by
  obtain ⟨counts, htally, hindex, hlast⟩ := index_spec w hkeys
  obtain ⟨reached, data, hrun, hplaced⟩ := placed_run hkeys hfits hindex items []
    (append_nil items).symm
  have hsmall : ∀ t, below items t % 2 ^ w = below items t :=
    fun t => mod_eq_of_lt (lt_of_le_of_lt (below_le items t) hfits)
  refine ⟨sums w 0 counts, data, ?_, hplaced.length, fun t ht => ⟨?_, ?_, ?_⟩⟩
  · unfold distribute
    rw [htally, bind_some]
    dsimp only
    rw [hlast, bind_some, mod_eq_of_lt hfits, hrun, map_some]
  · rw [hindex t (le_of_lt ht), hsmall]
  · rw [hindex (t + 1) ht, hsmall, below_succ]
  refine ext_getElem? (fun j => ?_)
  rw [getElem?_map]
  by_cases hj : j < (ofKey items t).length
  · rw [getElem?_take_of_lt hj, getElem?_drop, getElem?_eq_getElem hj,
      hplaced.placed t j _ ht (getElem?_eq_getElem hj)]
    rfl
  · rw [getElem?_take_eq_none (not_lt.mp hj), getElem?_eq_none (not_lt.mp hj)]
    rfl

/-! ## Too many items -/

/-- Every rank belongs to an item of some key. -/
theorem exists_rank {r : Nat} (hr : r < below items n) :
    ∃ t j, t < n ∧ j < (ofKey items t).length ∧ r = below items t + j := by
  induction n with
  | zero =>
    have hnone : below items 0 = 0 := by
      unfold below
      rw [countP_eq_zero]
      simp
    omega
  | succ n ih =>
    by_cases hlt : r < below items n
    · obtain ⟨t, j, ht, hj, heq⟩ := ih hlt
      exact ⟨t, j, lt_succ_of_lt ht, hj, heq⟩
    · have hnext := below_succ items n
      exact ⟨n, r - below items n, lt_succ_self n, by omega, by omega⟩

/-- The list cut before the item with number `j` of a key. -/
theorem exists_split (items : List (Nat × β)) {j : Nat} (hj : j < (ofKey items t).length) :
    ∃ done item rest, items = done ++ item :: rest ∧ item.1 = t ∧ (ofKey done t).length = j := by
  induction items using reverseRecOn with
  | nil => cases hj
  | append_singleton items item ih =>
    by_cases hlt : j < (ofKey items t).length
    · obtain ⟨done, x, rest, rfl, hx, hlen⟩ := ih hlt
      exact ⟨done, x, rest ++ [item], by simp, hx, hlen⟩
    · rw [ofKey_snoc] at hj
      by_cases heq : item.1 = t
      · rw [if_pos heq, length_append, length_singleton] at hj
        exact ⟨items, item, [], rfl, heq, by omega⟩
      · rw [if_neg heq, append_nil] at hj
        exact absurd hj hlt

/-- The places that the keys have reached, in the width of the counters. -/
theorem reached_run {total : Nat} (hindex : ∀ t, t ≤ n → index[t]? = some (below items t % 2 ^ w)) :
    ∀ (done : List (Nat × β)) (s : List Nat × List (Option β)),
      Runs.run (put w) (index, replicate total none) done = some s →
      s.2.length = total ∧
        ∀ t, t < n → s.1[t]? = some ((below items t + (ofKey done t).length) % 2 ^ w) := by
  intro done
  induction done using reverseRecOn with
  | nil =>
    rintro s hs
    cases hs
    exact ⟨length_replicate, fun t ht => hindex t (le_of_lt ht)⟩
  | append_singleton done item ih =>
    intro s hs
    rw [Runs.run_snoc] at hs
    obtain ⟨s1, hs1, hput⟩ := bind_eq_some_iff.mp hs
    obtain ⟨hlen, hreached⟩ := ih s1 hs1
    obtain ⟨pos, hpos, hput⟩ := bind_eq_some_iff.mp hput
    split at hput
    · unfold bump at hput
      rw [hpos, map_some, map_some] at hput
      cases hput
      refine ⟨length_set.trans hlen, fun t ht => ?_⟩
      rw [ofKey_snoc]
      by_cases heq : item.1 = t
      · subst heq
        have hval := hreached item.1 ht
        rw [hpos] at hval
        rw [List.getElem?_set_self (List.getElem_of_getElem? hpos).1, if_pos rfl,
          some.inj hval, mod_add_mod, length_append]
        rfl
      · rw [getElem?_set_ne heq, if_neg heq, append_nil]
        exact hreached t ht
    · cases hput

/-- **TOO MANY ITEMS** for the counters: one of them has no place. -/
theorem distribute_none (hkeys : ∀ item ∈ items, item.1 < n) (hmany : 2 ^ w ≤ items.length) :
    distribute w n items = none := by
  obtain ⟨counts, htally, hindex, hlast⟩ := index_spec w hkeys
  have hsmall : items.length % 2 ^ w < 2 ^ w := mod_lt _ (Nat.two_pow_pos w)
  -- the item with the rank of the array's length
  have hlt : items.length % 2 ^ w < below items n := by
    rw [below_all hkeys]
    omega
  obtain ⟨t, j, ht, hj, hrank⟩ := exists_rank hlt
  obtain ⟨done, item, rest, hitems, hitem, hdone⟩ := exists_split items hj
  have hput : ∀ s, Runs.run (put w) (sums w 0 counts, replicate (items.length % 2 ^ w) none)
      done = some s → put w s item = none := by
    intro s hs
    obtain ⟨hlen, hreached⟩ := reached_run hindex done s hs
    unfold put
    rw [hitem, hreached t ht, hdone, ← hrank, mod_eq_of_lt hsmall, bind_some, hlen,
      if_neg (lt_irrefl _)]
  have hrun : Runs.run (put w) (sums w 0 counts, replicate (items.length % 2 ^ w) none)
      (done ++ [item]) = none := by
    rw [Runs.run_snoc, bind_eq_none_iff]
    exact hput
  unfold distribute
  rw [htally, bind_some]
  dsimp only
  rw [hlast, bind_some]
  have hsplit : items = done ++ [item] ++ rest := by rw [hitems, append_assoc, singleton_append]
  rw [congrArg (Runs.run (put w) _) hsplit, Runs.run_append, hrun]
  rfl

end Distribute
