import ToplingArk.PatriciaTreeProofs

/-! # Where the path of a word leaves a tree with labelled edges

    The path of a word leaves the tree at a node, below a leaf, or between two children of a
    node.  Each of these places has a number of terminal nodes before it in depth-first
    order, and that is the number of strings smaller than the word. -/

namespace Patricia

open LevelTree Zpath Automata BitCount List

/-- In a sorted list what satisfies a downward closed predicate comes first. -/
theorem sorted_countP {α : Type} [LinearOrder α] {S : List α} (h : S.Pairwise (· < ·))
    {p : α → Bool}
    (hdown : ∀ a b, a < b → p b = true → p a = true) {i : Nat} {y : α} (hy : S[i]? = some y) :
    p y = true ↔ i < S.countP p := by
  induction S generalizing i with
  | nil => cases hy
  | cons x S ih =>
    rw [pairwise_cons] at h
    rw [countP_cons]
    cases i with
    | zero =>
      obtain rfl := Option.some.inj hy
      constructor
      · intro hx
        rw [if_pos hx]
        omega
      · intro hlt
        by_contra hx
        -- then nothing later satisfies the predicate
        rw [if_neg hx, countP_eq_zero.mpr (fun z hz hpz => hx (hdown _ z (h.1 z hz) hpz))]
          at hlt
        exact Nat.lt_irrefl 0 hlt
    | succ i =>
      rw [ih h.2 hy]
      constructor
      · intro hlt
        have hpos : 0 < S.countP p := by omega
        obtain ⟨z, hz, hpz⟩ := countP_pos_iff.mp hpos
        rw [if_pos (hdown _ z (h.1 z hz) hpz)]
        omega
      · intro hlt
        split at hlt <;> omega

/-! ## A word against an edge string -/

/-- How a word and an edge string compare: the string has been read and this is left of the
    word, or the word ends before the string does, or the first byte that differs is smaller
    or greater. -/
inductive Meet where
  | rest (w : List Nat)
  | short
  | below
  | above
deriving DecidableEq, Repr

/-- How a key meets an edge string. -/
def meet : List Nat → List Nat → Meet
  | [], w => .rest w
  | _ :: _, [] => .short
  | z :: zs, c :: w => if c = z then meet zs w else if c < z then .below else .above

variable {c l s a n : Nat} {w zs v : List Nat}

theorem meet_cons {z : Nat} :
    meet (z :: zs) (c :: w) = if c = z then meet zs w else if c < z then .below else .above := rfl

/-- Only a key that begins with the edge string goes on. -/
theorem meet_rest (h : meet zs w = .rest v) : w = zs ++ v := by
  induction zs generalizing w with
  | nil => exact Meet.rest.inj h
  | cons z zs ih =>
    cases w with
    | nil => cases h
    | cons c w =>
      rw [meet_cons] at h
      split at h
      · rename_i hc
        rw [ih h, hc]
        rfl
      · split at h <;> cases h

theorem rest_length (h : w = zs ++ c :: v) : v.length < w.length := by
  rw [h, length_append, length_cons]
  omega

/-- If the word ends or has a smaller byte then nothing with the edge string is smaller. -/
theorem meet_small (h : meet zs w = .short ∨ meet zs w = .below) (v : List Nat) :
    ¬ zs ++ v < w := by
  induction zs generalizing w with
  | nil => rcases h with h | h <;> cases h
  | cons z zs ih =>
    cases w with
    | nil => exact not_lt_nil _
    | cons c w =>
      rw [meet_cons] at h
      intro hlt
      rcases cons_lt_cons_iff.mp hlt with hzc | ⟨hzc, hlt⟩
      · rw [if_neg (by omega), if_neg (by omega)] at h
        rcases h with h | h <;> cases h
      · rw [if_pos hzc.symm] at h
        exact ih h hlt

/-- If the word has a greater byte then everything with the edge string is smaller. -/
theorem meet_above (h : meet zs w = .above) (v : List Nat) : zs ++ v < w := by
  induction zs generalizing w with
  | nil => cases h
  | cons z zs ih =>
    cases w with
    | nil => cases h
    | cons c w =>
      rw [meet_cons] at h
      refine cons_lt_cons_iff.mpr ?_
      split at h
      · rename_i hc
        exact .inr ⟨hc.symm, ih h⟩
      · split at h
        · cases h
        · exact .inl (by omega)

/-! ## The ways out of the tree -/

/-- Where the path of a word ends: at a node of level `l` or on the edge to it, such that nothing
    below the node is smaller; below a leaf; or among the children of a node of level `l`, to
    the left of where the child `c` is or would be. -/
inductive Stop where
  | inside (l s : Nat)
  | beyond (l s : Nat)
  | gap (l p c : Nat)
deriving DecidableEq, Repr

variable (P : PTree)

/-- The path of a word from a node of level `l`, through so many nodes at most. -/
def PTree.stopFrom : Nat → Nat → Nat → List Nat → Stop
  | 0, l, s, _ => .inside l s
  | fuel + 1, l, s, w =>
    match meet (P.zdfa.zdata s) w with
    | .short => .inside l s
    | .below => .inside l s
    | .above => .gap (l - 1) (P.parent s) (s + 1)
    | .rest [] => .inside l s
    | .rest (c :: w) =>
      if P.first (s + 1) = P.first s then .beyond l s
      else if P.hasLetter s c then PTree.stopFrom fuel (l + 1) (P.place s c) w
      else .gap l s (P.place s c)

/-- The path of a word from the root. -/
def PTree.stop (w : List Nat) : Stop := P.stopFrom (w.length + 1) 0 0 w

/-- The places that a path can end at. -/
def PTree.Within : Stop → Prop
  | .inside l s => P.At l s
  | .beyond l s => P.At l s ∧ P.first (s + 1) = P.first s
  | .gap l p c => P.At l p ∧ P.first p ≤ c ∧ c ≤ P.first (p + 1) ∧ P.first p < P.first (p + 1)

/-- The number of terminal nodes before the place, in depth-first order. -/
def PTree.passed : Stop → Nat
  | .inside l s => P.dfsRank P.term l s
  | .beyond l s => P.dfsRank P.term l s + 1
  | .gap l p c => P.through P.term l p c - P.total P.term 0 0

variable {P}

/-! ## Counting -/

/-- The string of a node ends in its edge string. -/
theorem exists_stem (hs : s < P.size) : ∃ stem, P.word s = stem ++ P.zdfa.zdata s := by
  rcases Nat.eq_zero_or_pos s with rfl | hpos
  · exact ⟨[], by rw [word_root, zdata_root]; rfl⟩
  · refine ⟨P.word (P.parent s) ++ [P.letter s], ?_⟩
    rw [word_of_pos hpos hs, append_assoc]
    rfl

/-- The strings below a node are its terminal descendants. -/
theorem length_words (h : P.At l s) :
    (P.zdfa.words s).length = (P.visit (P.height - l) s).countP P.term := by
  obtain ⟨stem, hstem⟩ := exists_stem h.lt_size
  have hmap := congrArg length (map_words_visit h le_rfl stem hstem)
  rwa [length_map, length_map, ← countP_eq_length_filter] at hmap

theorem mem_words_append {x : List Nat} (h : x ∈ P.zdfa.words s) :
    ∃ v, x = P.zdfa.zdata s ++ v := by
  obtain ⟨v, hv, -⟩ := (accepts_iff s x).mp ((acyclic.mem_words s x).mp h)
  exact ⟨v, hv⟩

/-- The strings behind consecutive children, after a word that leads to their parent. -/
def PTree.kids (P : PTree) (pre : List Nat) (a n : Nat) : List (List Nat) :=
  (range' a n).flatMap (fun d => (P.zdfa.words d).map (fun v => pre ++ P.letter d :: v))

/-- First the node's own string, then its children's. -/
theorem words_split (hs : s < P.size) :
    P.zdfa.words s = P.zdfa.own s (P.zdfa.zdata s) ++
      P.kids (P.zdfa.zdata s) (P.first s) (P.first (s + 1) - P.first s) := by
  rw [acyclic.words_eq]
  congr 1
  show P.zdfa.below _ (P.moves s) = _
  rw [moves_eq hs, ZDfa.below, flatMap_map]
  rfl

/-- The strings of two runs of children. -/
theorem kids_add (pre : List Nat) (a m n : Nat) :
    P.kids pre a (m + n) = P.kids pre a m ++ P.kids pre (a + m) n := by
  unfold PTree.kids
  rw [← range'_append, flatMap_append, Nat.one_mul]

theorem append_lt_append_iff (pre v w : List Nat) : pre ++ v < pre ++ w ↔ v < w := by
  induction pre with
  | nil => exact Iff.rfl
  | cons c pre ih =>
    rw [cons_append, cons_append, cons_lt_cons_iff, ih]
    simp

/-- Behind children with smaller letters all strings count. -/
theorem countP_kids_below (h : P.At l s) (h1 : P.first s ≤ a) (h2 : a + n ≤ P.first (s + 1))
    (hlt : ∀ d, a ≤ d → d < a + n → P.letter d < c) (pre w : List Nat) :
    (P.kids pre a n).countP (fun x => decide (x < pre ++ c :: w)) =
      ((range' a n).flatMap (P.visit (P.height - (l + 1)))).countP P.term := by
  unfold PTree.kids
  rw [countP_flatMap, countP_flatMap]
  refine congrArg sum (map_congr_left (fun d hd => ?_))
  rw [mem_range'_1] at hd
  have hat := h.child (show P.first s ≤ d by omega) (by omega)
  show ((P.zdfa.words d).map _).countP _ = (P.visit _ d).countP P.term
  rw [countP_map, ← length_words hat]
  refine countP_eq_length.mpr (fun v _ => ?_)
  exact decide_eq_true (append_cons_lt (hlt d hd.1 hd.2))

/-- Behind children with greater letters none does. -/
theorem countP_kids_above (hlt : ∀ d, a ≤ d → d < a + n → c < P.letter d) (pre w : List Nat) :
    (P.kids pre a n).countP (fun x => decide (x < pre ++ c :: w)) = 0 := by
  refine countP_eq_zero.mpr (fun x hx => ?_)
  obtain ⟨d, hd, hx⟩ := mem_flatMap.mp hx
  obtain ⟨v, -, rfl⟩ := mem_map.mp hx
  rw [mem_range'_1] at hd
  rw [decide_eq_true_eq]
  exact not_lt_of_gt (append_cons_lt (hlt d hd.1 hd.2))

/-- Behind the child with the letter it depends on the rest. -/
theorem countP_kids_one (pre w : List Nat) (d : Nat) :
    (P.kids pre d 1).countP (fun x => decide (x < pre ++ P.letter d :: w)) =
      (P.zdfa.words d).countP (fun x => decide (x < w)) := by
  unfold PTree.kids
  rw [range'_one, flatMap_cons, flatMap_nil, append_nil, countP_map]
  refine countP_congr (fun v _ => ?_)
  show decide (_ < _) = true ↔ decide (_ < _) = true
  rw [decide_eq_true_eq, decide_eq_true_eq, append_lt_append_iff, cons_lt_cons_iff]
  simp

/-- A node's own string comes before its longer ones. -/
theorem countP_own (s : Nat) (pre w : List Nat) (c : Nat) :
    (P.zdfa.own s pre).countP (fun x => decide (x < pre ++ c :: w)) =
      if P.term s then 1 else 0 := by
  show (if P.term s = true then _ else _ : List (List Nat)).countP _ = _
  split
  · rw [countP_singleton, if_pos (decide_eq_true lt_append_cons)]
  · rfl

/-- **ONE NODE FURTHER**: the strings of a node that are smaller than a word that goes on behind
    its edge string. -/
theorem countP_words (h : P.At l s) (c : Nat) (w : List Nat) :
    P.total P.term l s + (P.zdfa.words s).countP (fun x => decide (x < P.zdfa.zdata s ++ c :: w)) =
      P.through P.term l s (P.place s c) +
        if P.hasLetter s c then (P.zdfa.words (P.place s c)).countP (fun x => decide (x < w))
        else 0 := by
  have hge : P.first s ≤ P.place s c := Nat.le_add_right _ _
  have hle : P.place s c ≤ P.first (s + 1) := place_le
  obtain ⟨k, hk⟩ := exists_add_of_le hge
  obtain ⟨m, hm⟩ := exists_add_of_le hle
  -- the children with smaller letters count in full
  have hleft := countP_kids_below (a := P.first s) (n := k) (c := c) h le_rfl (by omega)
    (fun d h1 h2 => (letter_lt_iff h1 (by omega)).mpr (by omega)) (P.zdfa.zdata s) w
  have hright : (P.kids (P.zdfa.zdata s) (P.place s c) m).countP
      (fun x => decide (x < P.zdfa.zdata s ++ c :: w)) =
      if P.hasLetter s c then (P.zdfa.words (P.place s c)).countP (fun x => decide (x < w))
      else 0 := by
    by_cases hv : P.hasLetter s c = true
    · -- the child with the letter, and those after it
      obtain ⟨hin, hletter⟩ := letter_place hv
      have hone := countP_kids_one (P := P) (P.zdfa.zdata s) w (P.place s c)
      rw [hletter] at hone
      have hafter := countP_kids_above (P := P) (a := P.place s c + 1) (n := m - 1) (c := c)
        (fun d h1 h2 => by
          have := letter_lt (P := P) (d := d) hge (by omega) (by omega)
          omega) (P.zdfa.zdata s) w
      rw [if_pos hv, show m = 1 + (m - 1) by omega, kids_add, countP_append, hone, hafter,
        Nat.add_zero]
    · rw [if_neg hv, countP_kids_above (fun d h1 h2 => ?_)]
      have hnot := (letter_lt_iff (v := c) (show P.first s ≤ d by omega) (by omega)).not.mpr
        (show ¬ d < P.place s c by omega)
      have hne : P.letter d ≠ c := fun he =>
        hv (hasLetter_iff.mpr ⟨d, by omega, by omega, he⟩)
      omega
  rw [words_split h.lt_size, show P.first (s + 1) - P.first s = k + m by omega, kids_add, ← hk,
    countP_append, countP_append, countP_own, hleft, hright, hk, through_add,
    through_first P.term h]
  omega

/-- **WHERE THE PATH ENDS**, and how many strings are smaller. -/
theorem stopFrom_spec {fuel : Nat} (h : P.At l s) (hfuel : w.length < fuel) :
    P.Within (P.stopFrom fuel l s w) ∧
      P.passed (P.stopFrom fuel l s w) =
        P.dfsRank P.term l s + (P.zdfa.words s).countP (fun x => decide (x < w)) := by
  induction fuel generalizing l s w with
  | zero => cases hfuel
  | succ fuel ih =>
    have hbase := total_zero_le P.term h
    -- nothing below the node is smaller
    have hinside : (∀ v, ¬ P.zdfa.zdata s ++ v < w) →
        P.Within (.inside l s) ∧ P.passed (.inside l s) =
          P.dfsRank P.term l s + (P.zdfa.words s).countP (fun x => decide (x < w)) := by
      intro hnot
      refine ⟨h, ?_⟩
      rw [countP_eq_zero.mpr (fun x hx => ?_)]
      · rfl
      · obtain ⟨v, rfl⟩ := mem_words_append hx
        rw [decide_eq_true_eq]
        exact hnot v
    rw [PTree.stopFrom]
    cases hmeet : meet (P.zdfa.zdata s) w with
    | short => exact hinside (meet_small (.inl hmeet))
    | below => exact hinside (meet_small (.inr hmeet))
    | above =>
      have hall : (P.zdfa.words s).countP (fun x => decide (x < w)) =
          (P.visit (P.height - l) s).countP P.term := by
        rw [← length_words h]
        refine countP_eq_length.mpr (fun x hx => ?_)
        obtain ⟨v, rfl⟩ := mem_words_append hx
        exact decide_eq_true (meet_above hmeet v)
      cases l with
      | zero =>
        rw [h.eq_zero, zdata_root] at hmeet
        cases hmeet
      | succ l =>
        have hp := h.parent
        have h1 := first_parent_le (T := P.toLTree) h.pos
        have h2 := lt_first_parent_succ h.lt_size
        refine ⟨⟨hp, h1.trans (Nat.le_add_right s 1), h2, by omega⟩, ?_⟩
        show P.through P.term l (P.parent s) (s + 1) - _ = _
        rw [← after_child P.term hp h1 h2, hall]
        unfold LTree.after LTree.dfsRank
        omega
    | rest v =>
      have hw := meet_rest hmeet
      cases v with
      | nil =>
        refine hinside (fun v hlt => ?_)
        rw [hw, append_lt_append_iff] at hlt
        exact not_lt_nil _ hlt
      | cons c v =>
        have hcount := countP_words h c v
        rw [← hw] at hcount
        have hlen := rest_length hw
        have hge : P.first s ≤ P.place s c := Nat.le_add_right _ _
        have hle : P.place s c ≤ P.first (s + 1) := place_le
        dsimp only
        by_cases hleaf : P.first (s + 1) = P.first s
        · rw [if_pos hleaf]
          have hnone : P.hasLetter s c = false := hasLetter_end (by omega)
          rw [hnone, if_neg (by decide), show P.place s c = P.first s by omega,
            through_first P.term h, P.leaves s h.lt_size hleaf, if_pos rfl] at hcount
          refine ⟨⟨h, hleaf⟩, ?_⟩
          show P.dfsRank P.term l s + 1 = _
          omega
        have hkids : P.first s < P.first (s + 1) := by omega
        rw [if_neg hleaf]
        by_cases hv : P.hasLetter s c = true
        · obtain ⟨hin, -⟩ := letter_place hv
          obtain ⟨hwithin, hpassed⟩ := ih (h.child hge hin) (show v.length < fuel by omega)
          rw [if_pos hv, through_child P.term h hge hin] at hcount
          rw [if_pos hv]
          refine ⟨hwithin, ?_⟩
          have hbase' := total_zero_le P.term (h.child hge hin)
          rw [hpassed]
          unfold LTree.dfsRank
          omega
        · rw [if_neg hv] at hcount
          rw [if_neg hv]
          refine ⟨⟨h, hge, hle, hkids⟩, ?_⟩
          show P.through P.term l s (P.place s c) - _ = _
          unfold LTree.dfsRank
          omega

/-- Every search stops somewhere in the tree. -/
theorem stop_within (w : List Nat) : P.Within (P.stop w) :=
  (stopFrom_spec at_zero (Nat.lt_succ_self _)).1

/-- **THE NUMBER OF SMALLER STRINGS** is the number of terminal nodes before the end of the
    path. -/
theorem passed_stop (w : List Nat) :
    P.passed (P.stop w) = P.strings.countP (fun x => decide (x < w)) := by
  have h := (stopFrom_spec (P := P) at_zero (Nat.lt_succ_self w.length)).2
  rwa [dfsRank_root, Nat.zero_add] at h

end Patricia
