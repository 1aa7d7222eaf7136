import ToplingArk.LowerBoundRankProofs

/-! # `lower_bound` of a nested LOUDS trie — when it is right

    The index is the id of the smallest string that is no smaller than the word if the path of
    the word ends at a state or on the edge to it.  If it ends between two states of a
    layer, then the second of them is passed over, with all that comes before it; and if it
    ends behind the last state of a layer, then nothing is found at all.  The walk through
    the cache does not count the empty string. -/

namespace NestLouds

open BitCount LevelTree Patricia RankSelectLine List Option Nat

/-! ## Ids -/

/-- The id of the string with so many strings before it, or `size_t(-1)` behind the last. -/
def IsId (P : PTree) (rank i : Nat) : Prop :=
  (i = nilState ∧ rank = P.strings.length) ∨
    ∃ l x, P.At l x ∧ P.term x = true ∧ P.dfsRank P.term l x = rank ∧ i = ones P.term x

/-- `*dict_rank` is the number of smaller strings, and `*index` is the id of the smallest string
    that is no smaller than the word, or `size_t(-1)` if there is none. -/
structure IsLowerBound (P : PTree) (S : List (List Nat)) (w : List Nat) (index rank : Nat) :
    Prop where
  rank : rank = S.countP (fun x => decide (x < w))
  index : (∃ x, x < P.size ∧ P.term x = true ∧ P.word x ∈ S ∧ w ≤ P.word x ∧
      (∀ y ∈ S, w ≤ y → P.word x ≤ y) ∧ index = ones P.term x) ∨
    (∀ y ∈ S, y < w) ∧ index = nilState

variable {x : Nat} {w : List Nat}

section Ids

variable {P : PTree} {rank i : Nat}

theorem ones_lt_of_bit {f : Nat → Bool} {y : Nat} (hx : f x = true) (hlt : x < y) :
    ones f x < ones f y := by
  have hsucc := ones_succ f x
  have hmono := ones_mono f (show x + 1 ≤ y from hlt)
  rw [if_pos hx] at hsucc
  omega

/-- An id belongs to one rank only. -/
theorem IsId.unique (hsize : P.size < nilState) {rank' : Nat} (h : IsId P rank i)
    (h' : IsId P rank' i) : rank = rank' := by
  have hsmall : ∀ {l x}, P.At l x → ones P.term x ≠ nilState := by
    intro l x hx
    have h1 := ones_le P.term x
    have h2 := hx.lt_size
    omega
  rcases h with ⟨rfl, hr⟩ | ⟨l, x, hx, htx, hr, hi⟩
  · rcases h' with ⟨-, hr'⟩ | ⟨l', y, hy, -, -, hi'⟩
    · rw [hr, hr']
    · exact absurd hi'.symm (hsmall hy)
  rcases h' with ⟨rfl, -⟩ | ⟨l', y, hy, hty, hr', hi'⟩
  · exact absurd hi.symm (hsmall hx)
  have hxy : x = y := by
    rcases lt_trichotomy x y with hlt | heq | hgt
    · have := ones_lt_of_bit htx hlt
      omega
    · exact heq
    · have := ones_lt_of_bit hty hgt
      omega
  subst hxy
  obtain rfl := hx.unique hy
  rw [← hr, ← hr']

/-- `nil_state` stands for the rank behind the last string. -/
theorem isId_nil (hsize : P.size < nilState) : IsId P rank nilState ↔ rank = P.strings.length :=
  ⟨fun h => IsId.unique hsize h (.inl ⟨rfl, rfl⟩), fun h => .inl ⟨rfl, h⟩⟩

theorem countP_eq_length_iff (w : List Nat) :
    P.strings.countP (fun x => decide (x < w)) = P.strings.length ↔ ∀ y ∈ P.strings, y < w := by
  rw [countP_eq_length]
  simp only [decide_eq_true_eq]

/-- The strings before a place are the smaller ones. -/
theorem lt_iff_index {y : List Nat} (hy : P.strings[i]? = some y) :
    y < w ↔ i < P.strings.countP (fun x => decide (x < w)) := by
  have h := sorted_countP strings_sorted (p := fun x => decide (x < w))
    (fun a b hab hb => decide_eq_true (hab.trans (of_decide_eq_true hb))) hy
  rwa [decide_eq_true_eq] at h

/-- **THE SMALLEST STRING THAT IS NO SMALLER** is the one with all smaller strings before it. -/
theorem isLowerBound_iff {index : Nat} :
    IsLowerBound P P.strings w index rank ↔
      rank = P.strings.countP (fun x => decide (x < w)) ∧
        IsId P (P.strings.countP (fun x => decide (x < w))) index := by
  have hget : ∀ {i j : Nat} {y z : List Nat}, P.strings[i]? = some y →
      P.strings[j]? = some z → i < j → y < z := by
    intro i j y z hy hz hij
    obtain ⟨hi, rfl⟩ := List.getElem_of_getElem? hy
    obtain ⟨hj, rfl⟩ := List.getElem_of_getElem? hz
    exact pairwise_iff_getElem.mp strings_sorted i j hi hj hij
  constructor
  · rintro ⟨hrank, hindex⟩
    refine ⟨hrank, ?_⟩
    rcases hindex with ⟨x, hx, hterm, -, hle, hleast, hi⟩ | ⟨hall, hi⟩
    · obtain ⟨l, hl⟩ := exists_at hx
      have hat := string_of_node hl hterm
      refine .inr ⟨l, x, hl, hterm, ?_, hi⟩
      have hnot := (lt_iff_index (w := w) hat).not.mp (not_lt_of_ge hle)
      by_contra hne
      -- the string with the rank would be smaller than the least
      have hlt : P.strings.countP (fun x => decide (x < w)) < P.strings.length := by
        have := (List.getElem_of_getElem? hat).1
        omega
      have hy := getElem?_eq_getElem hlt
      have hge : w ≤ P.strings[P.strings.countP (fun x => decide (x < w))] :=
        le_of_not_gt ((lt_iff_index hy).not.mpr (lt_irrefl _))
      have hsmall := hget hy hat (by omega)
      exact absurd (hleast _ (getElem_mem hlt) hge) (not_le_of_gt hsmall)
    · exact .inl ⟨hi, (countP_eq_length_iff w).mpr hall⟩
  rintro ⟨hrank, hid⟩
  refine ⟨hrank, ?_⟩
  rcases hid with ⟨hi, hlen⟩ | ⟨l, x, hx, hterm, hr, hi⟩
  · exact .inr ⟨(countP_eq_length_iff w).mp hlen, hi⟩
  have hat := string_of_node hx hterm
  refine .inl ⟨x, hx.lt_size, hterm, mem_of_getElem? hat, ?_, fun y hy hwy => ?_, hi⟩
  · exact le_of_not_gt ((lt_iff_index hat).not.mpr (by omega))
  · obtain ⟨j, hj⟩ := mem_iff_getElem?.mp hy
    have hge := (lt_iff_index (w := w) hj).not.mp (not_lt_of_ge hwy)
    rcases lt_or_eq_of_le (show P.dfsRank P.term l x ≤ j by omega) with hlt | heq
    · exact (hget hat hj hlt).le
    · rw [← heq, hat] at hj
      exact (some.inj hj).le

end Ids

/-! ## The index at each end -/

variable {l p c : Nat}

section Index

variable {t : Skeleton} {P : PTree} {k s : Nat}

variable (h : t.Represents P)

include h

/-- On its layer a state is not behind the last. -/
theorem Skeleton.Represents.transIndex (hx : P.At k x) (dec : Bool) :
    t.transIndex (layersOf t P.toLTree) k x dec =
      if (dec && P.term x) = true then some (ones P.term x)
      else (t.stateNext x).bind (fun fixedState =>
        if fixedState ≠ nilState then t.isTerm.face.rank1 fixedState else some nilState) := by
  have hdec : t.decTerm x dec = some (dec && P.term x) := by
    unfold Skeleton.decTerm
    cases dec with
    | false => rfl
    | true => rw [if_pos rfl, h.terms x hx.lt_size, Bool.true_and]
  have hne : x ≠ P.level (k + 1) := hx.2.ne
  show ((wholeLayers P.toLTree)[k]?).bind _ = _
  rw [wholeLayers_get hx.lt_height]
  simp only [bind_some]
  rw [if_neg hne, hdec]
  simp only [bind_eq_bind, bind_some]
  rw [h.rank1 hx.lt_size.le, h.ones_eq hx.lt_size.le]

/-- The state behind `x` in the walk has the next rank. -/
theorem Skeleton.Represents.transIndex_next (hx : P.At k x)
    (hne : 0 < x ∨ P.first x < P.first (x + 1)) :
    ∃ i, t.transIndex (layersOf t P.toLTree) k x false = some i ∧
      IsId P (P.dfsRank P.term k x + (if P.term x then 1 else 0)) i := by
  obtain ⟨r, hr, hnext⟩ := stateNext_spec h hx hne
  rw [h.transIndex hx, Bool.false_and, if_neg (by decide), hr]
  simp only [bind_some]
  rcases hnext with ⟨rfl, hlen⟩ | ⟨l, hl, hterm, hrank⟩
  · exact ⟨nilState, rfl, .inl ⟨rfl, hlen⟩⟩
  · have hsize := h.lt_nilState
    have hlt := hl.lt_size
    rw [if_pos (by omega), h.rank1 hlt.le, h.ones_eq hlt.le]
    exact ⟨_, rfl, .inr ⟨l, r, hl, hterm, hrank, rfl⟩⟩

/-- **AT A STATE OR ON THE EDGE TO IT** the index is right. -/
theorem endIndex_inside (hs : P.At l s) :
    ∃ i, endIndex t P (.inside l s) = some i ∧ IsId P (P.dfsRank P.term l s) i := by
  show ∃ i, t.transIndex _ l s (P.term s) = some i ∧ _
  cases hterm : P.term s with
  | true =>
    refine ⟨ones P.term s, ?_, .inr ⟨l, s, hs, hterm, rfl, rfl⟩⟩
    rw [h.transIndex hs, hterm]
    rfl
  | false =>
    have hkids : P.first s < P.first (s + 1) := by
      have hmono := first_mono (T := P.toLTree) (le_add_right s 1)
      by_contra hleaf
      rw [P.leaves s hs.lt_size (by omega)] at hterm
      cases hterm
    obtain ⟨i, hi, hid⟩ := h.transIndex_next hs (.inr hkids)
    rw [hterm] at hid
    exact ⟨i, hi, hid⟩

/-- **BELOW A LEAF** it is right, too. -/
theorem endIndex_beyond (hs : P.At l s) (hleaf : P.first (s + 1) = P.first s) (hpos : 0 < s) :
    ∃ i, endIndex t P (.beyond l s) = some i ∧ IsId P (P.dfsRank P.term l s + 1) i := by
  have hnext := h.transIndex_next hs (.inl hpos)
  rwa [P.leaves s hs.lt_size hleaf] at hnext

/-- A trie of the empty string alone ends at once. -/
theorem endIndex_root (hleaf : P.first 1 = P.first 0) : endIndex t P (.beyond 0 0) = none := by
  show t.transIndex _ 0 0 false = none
  rw [h.transIndex at_zero, stateNext_root h hleaf]
  rfl

/-- **BETWEEN TWO STATES** it is what comes after the second, and behind the last state of a
    layer there is nothing. -/
theorem endIndex_gap (hgap : P.Within (.gap l p c)) :
    ∃ i, endIndex t P (.gap l p c) = some i ∧
      if c = P.level (l + 2) then i = nilState
      else P.At (l + 1) c ∧
        IsId P (P.dfsRank P.term (l + 1) c + (if P.term c then 1 else 0)) i := by
  obtain ⟨hp, h1, h2, hkids⟩ := hgap
  have hfirst := hp.child le_rfl hkids
  have hend : P.first (p + 1) ≤ P.level (l + 2) := by
    rw [level_succ]
    exact first_mono hp.2
  by_cases hc : c = P.level (l + 2)
  · refine ⟨nilState, ?_, by rw [if_pos hc]⟩
    show ((wholeLayers P.toLTree)[l + 1]?).bind _ = _
    rw [wholeLayers_get hfirst.lt_height]
    simp only [bind_some]
    rw [if_pos hc]
  · have hat : P.At (l + 1) c := ⟨hfirst.1.trans h1, lt_of_le_of_ne (h2.trans hend) hc⟩
    obtain ⟨i, hi, hid⟩ := h.transIndex_next hat (.inl hat.pos)
    exact ⟨i, hi, by rw [if_neg hc]; exact ⟨hat, hid⟩⟩

end Index

/-! ## When `lower_bound` is right -/

/-- No string is lost where the path of the word ends.  Between two states no string may lie
    from the word up to the string of the second; behind the last state of a layer all
    strings must be smaller; and there is no way on from a root without children. -/
def Lands (P : PTree) (S : List (List Nat)) (w : List Nat) : Stop → Prop
  | .inside _ _ => True
  | .beyond _ s => s ≠ 0
  | .gap l _ c =>
    if c = P.level (l + 2) then ∀ x ∈ S, x < w else ∀ x ∈ S, w ≤ x → P.word c < x

section Right

variable {t : Skeleton} {P : PTree}

/-- Passing over the second state loses nothing iff no string lies in between. -/
theorem passed_gap_iff (hgap : P.Within (.gap l p c)) (hc : P.At (l + 1) c)
    (hw : P.passed (.gap l p c) = P.strings.countP (fun x => decide (x < w))) :
    P.dfsRank P.term (l + 1) c + (if P.term c then 1 else 0) = P.passed (.gap l p c) ↔
      ∀ x ∈ P.strings, w ≤ x → P.word c < x := by
  obtain ⟨hp, h1, -, -⟩ := hgap
  have hle : P.passed (.gap l p c) ≤ P.dfsRank P.term (l + 1) c :=
    Nat.sub_le_sub_right (through_le P.term hp hc h1) _
  rw [← countP_strings_le hc, hw]
  rw [hw] at hle
  have hle' : P.dfsRank P.term (l + 1) c ≤
      P.strings.countP (fun x => decide (x ≤ P.word c)) := by
    rw [countP_strings_le hc]
    exact le_add_right _ _
  constructor
  · intro heq x hx hwx
    by_contra hnot
    obtain ⟨i, hi⟩ := mem_iff_getElem?.mp hx
    have hlow := (lt_iff_index (w := w) hi).not.mp (not_lt_of_ge hwx)
    have hhigh := (sorted_countP strings_sorted (p := fun x => decide (x ≤ P.word c))
      (fun a b hab hb => decide_eq_true (hab.le.trans (of_decide_eq_true hb))) hi).mp
      (decide_eq_true (le_of_not_gt hnot))
    omega
  · intro hnone
    refine le_antisymm (countP_mono_left (fun x hx hxc => ?_)) (hle.trans hle')
    rw [decide_eq_true_eq] at hxc ⊢
    by_contra hnot
    exact absurd (hnone x hx (le_of_not_gt hnot)) (not_lt_of_ge hxc)

/-- **THE INDEX IS RIGHT IFF NO STRING IS LOST.** -/
theorem endIndex_iff (h : t.Represents P) (w : List Nat) :
    (∃ i, endIndex t P (P.stop w) = some i ∧ IsId P (P.passed (P.stop w)) i) ↔
      Lands P P.strings w (P.stop w) := by
  have hwithin := stop_within (P := P) w
  have hpassed := passed_stop (P := P) w
  have hsize := h.lt_nilState
  cases hstop : P.stop w with
  | inside l s =>
    rw [hstop] at hwithin
    exact ⟨fun _ => trivial, fun _ => endIndex_inside h hwithin⟩
  | beyond l s =>
    rw [hstop] at hwithin
    obtain ⟨hs, hleaf⟩ := hwithin
    constructor
    · rintro ⟨i, hi, -⟩ rfl
      obtain rfl := hs.unique at_zero
      rw [endIndex_root h hleaf] at hi
      cases hi
    · intro hne
      exact endIndex_beyond h hs hleaf (pos_of_ne_zero hne)
  | gap l p c =>
    rw [hstop] at hwithin hpassed
    obtain ⟨i, hi, hid⟩ := endIndex_gap h hwithin
    have hsome : (∃ j, endIndex t P (.gap l p c) = some j ∧ IsId P (P.passed (.gap l p c)) j) ↔
        IsId P (P.passed (.gap l p c)) i := by
      rw [hi]
      simp
    rw [hsome]
    show _ ↔ if c = P.level _ then ∀ x ∈ P.strings, x < w else ∀ x ∈ P.strings, w ≤ x → P.word c < x
    by_cases hc : c = P.level (l + 2)
    · rw [if_pos hc] at hid ⊢
      rw [hid, isId_nil hsize, hpassed, countP_eq_length_iff]
    · rw [if_neg hc] at hid ⊢
      obtain ⟨hat, hid⟩ := hid
      rw [← passed_gap_iff hwithin hat hpassed]
      exact ⟨fun hid' => hid.unique hsize hid', fun heq => heq ▸ hid⟩

/-- The empty string is that of the root. -/
theorem nil_mem_strings : [] ∈ P.strings ↔ P.term 0 = true := by
  rw [mem_strings]
  show P.zdfa.dfa.accepts (0, P.zdfa.zdata 0) [] = true ↔ _
  rw [zdata_root]
  exact Iff.rfl

/-- If the root is terminal then it has been counted. -/
theorem passed_pos (hroot : P.term 0 = true) (w : List Nat) :
    0 < P.passed (P.stop w) + endDec P (P.stop w) := by
  cases w with
  | nil =>
    have hstop : P.stop [] = .inside 0 0 := by
      show P.stopFrom 1 0 0 [] = _
      rw [PTree.stopFrom, zdata_root]
      rfl
    rw [hstop]
    show 0 < P.passed _ + if P.term 0 = true then 1 else 0
    rw [if_pos hroot]
    omega
  | cons c w =>
    rw [passed_stop]
    have hpos : 0 < P.strings.countP (fun x => decide (x < c :: w)) :=
      countP_pos_iff.mpr ⟨[], nil_mem_strings.mpr hroot, decide_eq_true (nil_lt_cons _ _)⟩
    omega

/-- **THE RANK IS RIGHT IFF NOTHING WAS LEFT OUT.** -/
theorem rank_iff (w : List Nat) (cache : Option Cache) :
    wsub (P.passed (P.stop w) + endDec P (P.stop w) - uncounted P cache) (endDec P (P.stop w)) =
      P.passed (P.stop w) ↔ (cache.isSome = true → [] ∉ P.strings) := by
  have hones : ones P.term 1 = if P.term 0 then 1 else 0 := by
    rw [ones_succ, ones_zero, zero_add]
  have hright : wsub (P.passed (P.stop w) + endDec P (P.stop w) - 0) (endDec P (P.stop w)) =
      P.passed (P.stop w) := by
    rw [Nat.sub_zero, wsub_eq (le_add_left _ _), Nat.add_sub_cancel]
  cases cache with
  | none =>
    have hnone : (none : Option Cache).isSome ≠ true := nofun
    exact ⟨fun _ hsome => absurd hsome hnone, fun _ => hright⟩
  | some c =>
    show wsub (_ - ones P.term 1) _ = _ ↔ (true = true → _)
    rw [hones, nil_mem_strings]
    cases hroot : P.term 0 with
    | false =>
      exact ⟨fun _ _ => by decide, fun _ => hright⟩
    | true =>
      -- one too few, or all ones if that is below zero
      have hpos := passed_pos hroot w
      rw [if_pos rfl]
      constructor
      · intro heq
        by_cases hle : endDec P (P.stop w) ≤ P.passed (P.stop w) + endDec P (P.stop w) - 1
        · rw [wsub_eq hle] at heq
          omega
        · rw [wsub_wrap (not_le.mp hle)] at heq
          omega
      · exact fun hnot => absurd rfl (hnot rfl)

end Right

/-- **LOWER BOUND**: the rank and the index are right exactly if no string is lost where the path
    of the word ends, and with a cache the empty string is not in the set. -/
theorem lower_bound_right_iff (t : Trie) (P : PTree) (hrep : t.Carries P)
    (S : List (List Nat)) (hsorted : S.Pairwise (· < ·)) (hS : ∀ w, w ∈ S ↔ P.accepts w = true)
    (layers : Layers) (hinit : t.initForTerm = some layers)
    (cache : Option Cache) (hcache : ∀ c ∈ cache, ∃ n slot, c.Mirrors P n slot)
    (w : List Nat) (hw : ∀ b ∈ w, b < 256) :
    (∃ index rank, t.lowerBound layers fromRoot w cache = some (index, rank) ∧
      IsLowerBound P S w index rank) ↔
      Lands P S w (P.stop w) ∧ (cache.isSome = true → [] ∉ S) := by
  have h := hrep.represents
  obtain ⟨rfl, -⟩ := h.init hinit
  rw [← strings_eq hsorted hS, lowerBound_spec hrep hw hcache, ← endIndex_iff h, ← rank_iff]
  unfold answer
  simp only [isLowerBound_iff, ← passed_stop]
  constructor
  · rintro ⟨index, rank, hans, hrank, hid⟩
    obtain ⟨i, hi, hpair⟩ := map_eq_some_iff.mp hans
    rw [Prod.mk.injEq] at hpair
    obtain ⟨rfl, rfl⟩ := hpair
    exact ⟨⟨i, hi, hid⟩, hrank⟩
  · rintro ⟨⟨i, hi, hid⟩, hrank⟩
    exact ⟨i, _, by rw [hi]; rfl, hrank, hid⟩

/-- The tree of the strings "b" and "d". -/
def twoLetters : PTree where
  deg := [2, 0, 0]
  ahead := by decide
  whole := rfl
  letter := fun c => if c = 1 then 98 else 100
  zpath := fun _ => none
  term := fun s => s != 0
  ascending := ascending_of_nodes (by decide)
  byte := fun c => by
    split <;> decide
  zbytes := noZpath_bytes
  leaves := by decide
  root := noZpath_root

/-- A cache that knows no transition of the root. -/
def rootCache : Cache := ⟨replicate 257 ⟨0, 2 ^ 32 - 1, 0, 0⟩, []⟩

theorem rootCache_mirrors : rootCache.Mirrors twoLetters 1 (fun _ => 0) where
  pos := one_pos
  le := by decide
  root := rfl
  cell := by
    intro s hs
    obtain rfl : s = 0 := by omega
    refine ⟨⟨0, 2 ^ 32 - 1, 0, 0⟩, ⟨0, 2 ^ 32 - 1, 0, 0⟩, rfl, rfl, rfl, le_refl 0, rfl, ?_⟩
    intro b hb
    refine ⟨⟨0, 2 ^ 32 - 1, 0, 0⟩, ?_, ⟨fun h => absurd h (by decide), fun h => ?_⟩,
      fun h => absurd h (by decide)⟩
    · show (replicate 257 _)[0 + b]? = _
      rw [getElem?_replicate, if_pos (by omega)]
    · have hge : 1 ≤ twoLetters.place 0 b := le_add_right 1 _
      omega

/-- The layers of the trie of "b" and "d". -/
def twoLayers : Layers := ⟨[(0, 0), (1, 0)], [⟨0, 1, 0⟩, ⟨1, 3, 0⟩], 1, 2⟩

/-- "b" is found, with a cache of the root. -/
theorem lower_bound_right_b :
    ∃ index rank, (trieOf twoLetters).lowerBound twoLayers fromRoot [98] (some rootCache) =
      some (index, rank) ∧ IsLowerBound twoLetters [[98], [100]] [98] index rank := by
  have hstrings : twoLetters.strings = [[98], [100]] := by decide
  refine (lower_bound_right_iff (trieOf twoLetters) twoLetters (trieOf_carries (by decide))
    [[98], [100]] (by decide) (fun w => by rw [← hstrings, mem_strings]) twoLayers rfl
    (some rootCache) (fun c hc => ?_) [98] (by decide)).mpr ⟨?_, fun _ => by decide⟩
  · obtain rfl := some.inj hc
    exact ⟨1, fun _ => 0, rootCache_mirrors⟩
  · trivial

/-- **"a" IS TAKEN FOR "d"**: the smallest string that is no smaller than "a" is "b", with id 0,
    but the walk ends before "b" and `state_next` goes on from there. -/
theorem lower_bound_skips_b :
    (trieOf twoLetters).Carries twoLetters ∧ twoLetters.strings = [[98], [100]] ∧
      (trieOf twoLetters).initForTerm = some twoLayers ∧
      (trieOf twoLetters).lowerBound twoLayers fromRoot [97] none = some (1, 0) ∧
      IsLowerBound twoLetters [[98], [100]] [97] 0 0 ∧
      ¬ IsLowerBound twoLetters [[98], [100]] [97] 1 0 := by
  have hstrings : twoLetters.strings = [[98], [100]] := by decide
  refine ⟨trieOf_carries (by decide), hstrings, rfl, rfl, ⟨by decide, .inl ⟨1, by decide⟩⟩, ?_⟩
  rintro ⟨-, ⟨x, hx, -, -, -, hleast, hid⟩ | ⟨hall, -⟩⟩
  · have hle := hleast [98] (by decide) (by decide)
    have hsize : twoLetters.size = 3 := rfl
    obtain rfl | rfl | rfl : x = 0 ∨ x = 1 ∨ x = 2 := by omega
    · exact absurd hid (by decide)
    · exact absurd hid (by decide)
    · exact absurd hle (by decide)
  · exact absurd (hall [98] (by decide)) (by decide)

end NestLouds
