import Mathlib.Data.List.Forall2
import ToplingArk.LowerBoundProofs

/-! # Ordered ids of a nested LOUDS trie — the strings one after the other

    `index_begin` and `index_next` go through the ids of the strings in order, `index_end`
    and `index_prev` in reverse.  A round of `state_prev` goes to the last leaf below the
    previous brother, or to the parent, and so undoes a round of `state_next`.

    The climb of `state_next` looks for the root only when it has gone up: from a root
    without children it goes to the parent of the root. -/

namespace NestLouds

open BitCount LevelTree Patricia RankSelectLine List Option

/-! ## The model -/

namespace Skeleton

variable (t : Skeleton)

/-- The loop that goes to the last child until there is none. -/
def lastLeaf : Nat → Nat → Option Nat
  | 0, _ => none
  | fuel + 1, state => do
    let bitpos ← t.louds.face.select0 state
    let lcount := Louds.oneSeqLen t.louds.bits (bitpos + 1)
    if lcount = 0 then some state else lastLeaf fuel (wsub bitpos state + lcount - 1)

/-- A round of `state_prev`: below the previous brother, or up. -/
def retreat (state : Nat) : Option Nat := do
  let bitpos ← t.select1 state
  let brother ← t.louds.bits[wsub bitpos 1]?
  if brother then t.lastLeaf t.louds.bits.length (state - 1)
  else some (wsub (wsub bitpos state) 1)

/-- The loop of `state_prev`, by its rounds. -/
def statePrevLoop : Nat → Nat → Option Nat
  | 0, _ => none
  | fuel + 1, state =>
    if state = 0 then some nilState
    else do
      let prev ← t.retreat state
      let term ← t.isTerm.bits[prev]?
      if term then some prev else statePrevLoop fuel prev

/-- `state_prev` -/
def statePrev (state : Nat) : Option Nat := t.statePrevLoop t.louds.bits.length state

/-- `state_begin`: the root, or the state after it. -/
def stateBegin : Option Nat := do
  let term ← t.isTerm.bits[0]?
  if term then some 0 else t.stateNext 0

/-- `state_end`: the last leaf, or the state before it. -/
def stateEnd : Option Nat := do
  let state ← t.lastLeaf t.louds.bits.length 0
  let term ← t.isTerm.bits[state]?
  if term then some state else t.statePrev state

/-- `node_id != size_t(-1) ? getIsTerm().rank1(node_id) : size_t(-1)` -/
def idOf (nodeId : Nat) : Option Nat :=
  if nodeId ≠ nilState then t.isTerm.face.rank1 nodeId else some nilState

/-- `index_begin` -/
def indexBegin : Option Nat := t.stateBegin.bind t.idOf

/-- `index_end` -/
def indexEnd : Option Nat := t.stateEnd.bind t.idOf

/-- From the state of an id to another one, and back to its id. -/
def indexBy (move : Nat → Option Nat) (nth : Nat) : Option Nat := do
  let nodeId ← t.isTerm.face.select1 nth
  let nodeId ← move nodeId
  t.idOf nodeId

/-- `index_next` -/
def indexNext : Nat → Option Nat := t.indexBy t.stateNext

/-- `index_prev` -/
def indexPrev : Nat → Option Nat := t.indexBy t.statePrev

end Skeleton

/-- The ids that are visited until `size_t(-1)`. -/
def visited (step : Nat → Option Nat) : Nat → Nat → Option (List Nat)
  | 0, _ => none
  | fuel + 1, id =>
    if id = nilState then some [] else ((step id).bind (visited step fuel)).map (id :: ·)

/-! ## `state_prev` -/

section Prev

variable {t : Skeleton} {P : PTree} {l s fuel : Nat}

/-- **THE LAST LEAF BELOW A NODE**: behind both comes the same. -/
theorem lastLeaf_spec (h : t.Codes P.toLTree) (hs : P.At l s) (hfuel : P.height - l ≤ fuel) :
    ∃ l' r, t.lastLeaf fuel s = some r ∧ P.At l' r ∧ P.first (r + 1) = P.first r ∧
      ∀ f, P.after f l' r = P.after f l s := by
  induction fuel generalizing l s with
  | zero =>
    have := hs.lt_height
    omega
  | succ fuel ih =>
    have hmono := first_mono (T := P.toLTree) (Nat.le_add_right s 1)
    rw [Skeleton.lastLeaf, h.select0 hs.lt_size.le]
    simp only [bind_eq_bind, bind_some]
    rw [h.louds, Louds.oneSeqLen_bits hs.lt_size, wsub_eq (Nat.le_add_right s _),
      Nat.add_sub_cancel_left]
    split
    · exact ⟨l, s, rfl, hs, by omega, fun f => rfl⟩
    · rw [show P.first s + (P.first (s + 1) - P.first s) - 1 = P.first (s + 1) - 1
        by omega]
      have h1 : P.first s ≤ P.first (s + 1) - 1 := by omega
      have h2 : P.first (s + 1) - 1 < P.first (s + 1) := by omega
      obtain ⟨l', r, hr, hat, hend, hafter⟩ := ih (hs.child h1 h2) (by omega)
      refine ⟨l', r, hr, hat, hend, fun f => ?_⟩
      rw [hafter, after_child f hs h1 h2, Nat.sub_add_cancel (by omega), through_last f hs]

/-- **A ROUND GOES TO THE NODE BEFORE** in depth-first order. -/
theorem retreat_spec (h : t.Codes P.toLTree) (hs : P.At (l + 1) s) :
    ∃ l' r, t.retreat s = some r ∧ P.At l' r ∧
      ∀ f, P.total f (l + 1) s = P.total f l' r + (if f r then 1 else 0) := by
  have hp := hs.parent
  have hge := first_parent_le (T := P.toLTree) hs.pos
  have hlt := lt_first_parent_succ hs.lt_size
  unfold Skeleton.retreat
  rw [h.select1_pos hs]
  simp only [bind_eq_bind, bind_some]
  rw [wsub_eq (show 1 ≤ s + P.parent s + 1 by omega), Nat.add_sub_cancel, h.louds,
    Louds.bit_before hge hlt hp.lt_size, wsub_parent]
  simp only [bind_some, decide_eq_true_eq]
  by_cases hbro : P.first (P.parent s) < s
  · have h1 : P.first (P.parent s) ≤ s - 1 := by omega
    have h2 : s - 1 < P.first (P.parent s + 1) := by omega
    have hheight := height_le_size (T := P.toLTree)
    obtain ⟨l', r, hr, hat, hleaf, hafter⟩ := lastLeaf_spec h (hp.child h1 h2)
      (show P.height - (l + 1) ≤ (Louds.bits P.toLTree).length by rw [Louds.length_bits]; omega)
    rw [if_pos hbro, hr]
    refine ⟨l', r, rfl, hat, fun f => ?_⟩
    rw [← after_leaf f hat hleaf, hafter, after_child f hp h1 h2, Nat.sub_add_cancel hs.pos,
      through_child f hp hge hlt]
  · rw [if_neg hbro]
    refine ⟨l, P.parent s, rfl, hp, fun f => ?_⟩
    have hfirst : P.first (P.parent s) = s := by omega
    rw [← through_first f hp, hfirst, through_child f hp hge hlt]

/-- **`state_prev` FINDS THE TERMINAL STATE BEFORE**, or there is none. -/
theorem statePrev_spec (h : t.Represents P) (hs : P.At l s) :
    ∃ r, t.statePrev s = some r ∧ ((r = nilState ∧ P.dfsRank P.term l s = 0) ∨
      ∃ l', P.At l' r ∧ P.term r = true ∧ P.dfsRank P.term l' r + 1 = P.dfsRank P.term l s) := by
  -- the number of nodes before the state, terminal or not, falls with every round
  have key : ∀ fuel l s, P.At l s → P.dfsRank (fun _ => true) l s < fuel →
      ∃ r, t.statePrevLoop fuel s = some r ∧ ((r = nilState ∧ P.dfsRank P.term l s = 0) ∨
        ∃ l', P.At l' r ∧ P.term r = true ∧ P.dfsRank P.term l' r + 1 = P.dfsRank P.term l s) := by
    intro fuel
    induction fuel with
    | zero => exact fun l s _ hfuel => absurd hfuel (Nat.not_lt_zero _)
    | succ fuel ih =>
      intro l s hs hfuel
      unfold Skeleton.statePrevLoop
      cases l with
      | zero =>
        obtain rfl := hs.eq_zero
        exact ⟨nilState, rfl, .inl ⟨rfl, Nat.sub_self _⟩⟩
      | succ l =>
        obtain ⟨l', r, hr, hat, htotal⟩ := retreat_spec h.toCodes hs
        have hrank : ∀ f, P.dfsRank f (l + 1) s = P.dfsRank f l' r + (if f r then 1 else 0) := by
          intro f
          have hbase := total_zero_le (T := P.toLTree) f hat
          unfold LTree.dfsRank
          rw [htotal]
          omega
        have htrue := hrank (fun _ => true)
        rw [if_pos rfl] at htrue
        rw [if_neg hs.pos.ne', hr]
        simp only [bind_eq_bind, bind_some]
        rw [h.terms r hat.lt_size, hrank P.term]
        simp only [bind_some]
        cases hterm : P.term r with
        | true => exact ⟨r, rfl, .inr ⟨l', hat, hterm, rfl⟩⟩
        | false => exact ih l' r hat (by omega)
  refine key _ l s hs ?_
  have hplace := dfsRank_lt_length (fun _ => true) hs
  have hlen := length_dfs_le (T := P.toLTree)
  rw [h.louds, Louds.length_bits]
  omega

end Prev

/-! ## The ids -/

section Ids

variable {t : Skeleton} {P : PTree} (h : t.Represents P) {x : Nat}

include h

/-- The id of a terminal state leads back to it. -/
theorem Skeleton.Represents.select1_eq (hx : x < P.size) (hterm : P.term x = true) :
    t.isTerm.face.select1 (ones P.term x) = some x := by
  have hsel : IsSelect t.termBit (ones P.term x) x :=
    ⟨(h.termBit hx).trans hterm, h.ones_eq hx.le⟩
  have hlt : ones P.term x < t.isTerm.face.maxRank1 := by
    have hmono := ones_mono t.termBit (show x + 1 ≤ t.isTerm.bits.length by rw [h.term]; exact hx)
    rw [hsel.ones_succ_eq] at hmono
    rw [t.isTerm.correct.max1, ← ones_ofList]
    exact hmono
  obtain ⟨p, hp, -, hsel'⟩ := t.isTerm.correct.select1 _ hlt
  rw [hp, hsel'.unique hsel]

/-- **A MOVE FROM ONE STATE OF A LIST TO THE NEXT** visits the ids of the list. -/
theorem visited_eq {L : List Nat} (hL : ∀ x ∈ L, x < P.size ∧ P.term x = true)
    {move : Nat → Option Nat}
    (hmove : ∀ i x, L[i]? = some x → move x = some (L[i + 1]?.getD nilState)) :
    ∀ fuel i, L.length - i < fuel →
      (t.idOf (L[i]?.getD nilState)).bind (visited (t.indexBy move) fuel) =
        some ((L.drop i).map (ones P.term)) := by
  intro fuel
  induction fuel with
  | zero => exact fun i hi => absurd hi (Nat.not_lt_zero _)
  | succ fuel ih =>
    intro i hi
    unfold Skeleton.idOf
    cases hx : L[i]? with
    | none =>
      rw [drop_eq_nil_of_le (getElem?_eq_none_iff.mp hx)]
      rfl
    | some x =>
      obtain ⟨hlt, hget⟩ := List.getElem_of_getElem? hx
      obtain ⟨hsize, hterm⟩ := hL x (mem_of_getElem? hx)
      have hnil := h.lt_nilState
      have hones := ones_le P.term x
      have hstep : t.indexBy move (ones P.term x) = t.idOf (L[i + 1]?.getD nilState) := by
        unfold Skeleton.indexBy
        rw [h.select1_eq hsize hterm]
        simp only [bind_eq_bind, bind_some]
        rw [hmove i x hx, bind_some]
      rw [getD_some, if_pos (by omega), h.rank1 hsize.le, h.ones_eq hsize.le, bind_some, visited,
        if_neg (by omega), hstep, ih (i + 1) (by omega), drop_eq_getElem_cons hlt, hget]
      rfl

omit h in
/-- The next terminal state, by its rank. -/
theorem NextTerm.eq {rank r : Nat} (hnext : NextTerm P rank r) :
    r = (P.dfs.filter P.term)[rank]?.getD nilState := by
  rcases hnext with ⟨rfl, hend⟩ | ⟨l, hat, hterm, hrank⟩
  · rw [strings_eq_dfs, length_map] at hend
    rw [getElem?_eq_none hend.symm.le]
    rfl
  · rw [terminal_iff.mpr ⟨l, hat, hterm, hrank⟩]
    rfl

omit h in
/-- The same counted from the end. -/
theorem terminal_reverse {l i : Nat} (hx : P.At l x) (hterm : P.term x = true)
    (hrank : P.dfsRank P.term l x + i + 1 = (P.dfs.filter P.term).length) :
    (P.dfs.filter P.term).reverse[i]?.getD nilState = x := by
  rw [getElem?_reverse (by omega), terminal_iff.mpr ⟨l, hx, hterm, by omega⟩]
  rfl

variable (hkids : P.first 0 < P.first 1)

include hkids

/-- Forth, from one terminal state to the next. -/
theorem forth_spec : t.stateBegin = some ((P.dfs.filter P.term)[0]?.getD nilState) ∧
    ∀ i x, (P.dfs.filter P.term)[i]? = some x →
      t.stateNext x = some ((P.dfs.filter P.term)[i + 1]?.getD nilState) := by
  constructor
  · unfold Skeleton.stateBegin
    rw [h.terms 0 size_pos]
    simp only [bind_eq_bind, bind_some]
    have hzero : P.dfsRank P.term 0 0 = 0 := Nat.sub_self _
    cases hterm : P.term 0 with
    | true =>
      rw [terminal_iff.mpr ⟨0, at_zero, hterm, hzero⟩]
      rfl
    | false =>
      obtain ⟨r, hr, hnext⟩ := stateNext_spec h at_zero (.inr hkids)
      rw [hterm, hzero, if_neg Bool.false_ne_true] at hnext
      rw [← hnext.eq]
      exact hr
  · intro i x hx
    obtain ⟨l, hat, hterm, rfl⟩ := terminal_iff.mp hx
    have hgo : 0 < x ∨ P.first x < P.first (x + 1) := by
      rcases Nat.eq_zero_or_pos x with rfl | hpos
      · exact .inr hkids
      · exact .inl hpos
    obtain ⟨r, hr, hnext⟩ := stateNext_spec h hat hgo
    rw [hterm, if_pos rfl] at hnext
    rw [hr, hnext.eq]

omit hkids in
/-- Back, from one terminal state to the one before. -/
theorem back_spec : t.stateEnd = some ((P.dfs.filter P.term).reverse[0]?.getD nilState) ∧
    ∀ i x, (P.dfs.filter P.term).reverse[i]? = some x →
      t.statePrev x = some ((P.dfs.filter P.term).reverse[i + 1]?.getD nilState) := by
  constructor
  · have hheight := height_le_size (T := P.toLTree)
    obtain ⟨l, r, hr, hat, hleaf, hafter⟩ := lastLeaf_spec (l := 0) h.toCodes at_zero
      (show P.height - 0 ≤ t.louds.bits.length by rw [h.louds, Louds.length_bits]; omega)
    have hterm := P.leaves r hat.lt_size hleaf
    have hbase := total_zero_le (T := P.toLTree) P.term hat
    have hlast := hafter P.term
    rw [after_leaf _ hat hleaf, hterm, if_pos rfl, after_root, countP_eq_length_filter] at hlast
    unfold Skeleton.stateEnd
    rw [hr]
    simp only [bind_eq_bind, bind_some]
    rw [h.terms r hat.lt_size, hterm, terminal_reverse hat hterm (by unfold LTree.dfsRank; omega)]
    rfl
  · intro i x hx
    obtain ⟨hlt, -⟩ := List.getElem_of_getElem? hx
    rw [length_reverse] at hlt
    rw [getElem?_reverse hlt] at hx
    obtain ⟨l, hat, hterm, hrank⟩ := terminal_iff.mp hx
    obtain ⟨r, hr, ⟨rfl, hzero⟩ | ⟨l', hat', hterm', hbefore⟩⟩ := statePrev_spec h hat
    · rw [hr, getElem?_eq_none (by rw [length_reverse]; omega)]
      rfl
    · rw [hr, terminal_reverse hat' hterm' (by omega)]

end Ids

/-- **THE IDS IN ORDER, BOTH WAYS**, exactly if the trie is not only a root: from that, `state_next`
    goes to the parent of the root. -/
theorem ordered_ids_iff (t : Skeleton) (P : PTree) (hrep : t.Represents P) (S : List (List Nat))
    (hsorted : S.Pairwise (· < ·)) (hS : ∀ w, w ∈ S ↔ P.accepts w = true) :
    (∃ ids, Forall₂ (fun w id => ∃ x, x < P.size ∧ P.term x = true ∧ P.word x = w ∧
        id = ones P.term x) S ids ∧
      t.indexBegin.bind (visited t.indexNext (S.length + 1)) = some ids ∧
      t.indexEnd.bind (visited t.indexPrev (S.length + 1)) = some ids.reverse) ↔ 1 < P.size := by
  have hN : ∀ x ∈ P.dfs.filter P.term, x < P.size ∧ P.term x = true := by
    intro x hx
    obtain ⟨i, hi⟩ := mem_iff_getElem?.mp hx
    obtain ⟨l, hat, hterm, -⟩ := terminal_iff.mp hi
    exact ⟨hat.lt_size, hterm⟩
  rw [← strings_eq hsorted hS, strings_eq_dfs, length_map]
  constructor
  -- with the root alone, `state_next` of it is undefined
  · rintro ⟨ids, -, hforth, -⟩
    by_contra hsize
    have hpos := size_pos (T := P.toLTree)
    have hleaf : P.first 1 = P.first 0 := by
      have hend := first_size (T := P.toLTree)
      rwa [show P.size = 1 by omega] at hend
    have hterm := P.leaves 0 hpos hleaf
    have hbegin : t.indexBegin = some 0 := by
      unfold Skeleton.indexBegin Skeleton.stateBegin
      rw [hrep.terms 0 hpos, hterm]
      exact hrep.rank1 (Nat.zero_le _)
    have hnext : t.indexNext 0 = none := by
      unfold Skeleton.indexNext Skeleton.indexBy
      have hsel := hrep.select1_eq hpos hterm
      rw [ones_zero] at hsel
      rw [hsel]
      simp only [bind_eq_bind, bind_some]
      rw [stateNext_root hrep hleaf]
      rfl
    rw [hbegin, bind_some, visited, if_neg (by decide), hnext] at hforth
    cases hforth
  -- otherwise both walks list the terminal states
  · intro hsize
    have hkids : P.first 0 < P.first 1 := by
      have hlt := level_lt_succ (T := P.toLTree) (k := 1) hsize
      rwa [level_succ 1, level_one] at hlt
    obtain ⟨hbegin, hnext⟩ := forth_spec hrep hkids
    obtain ⟨hend, hprev⟩ := back_spec hrep
    refine ⟨(P.dfs.filter P.term).map (ones P.term), ?_, ?_, ?_⟩
    · rw [forall₂_map_left_iff, forall₂_map_right_iff, forall₂_same]
      exact fun x hx => ⟨x, (hN x hx).1, (hN x hx).2, rfl, rfl⟩
    · have hrun := visited_eq hrep hN hnext ((P.dfs.filter P.term).length + 1) 0 (by omega)
      unfold Skeleton.indexBegin
      rw [hbegin, bind_some]
      exact hrun
    · have hrun := visited_eq hrep (L := (P.dfs.filter P.term).reverse)
        (fun x hx => hN x (mem_reverse.mp hx)) hprev ((P.dfs.filter P.term).length + 1) 0
        (by rw [length_reverse]; omega)
      unfold Skeleton.indexEnd
      rw [hend, bind_some, ← map_reverse]
      exact hrun

/-- The trie of the empty string and two single letters. -/
theorem ordered_ids_three :
    let t := skeletonOf (wideTree 0 0) 2 (by decide)
    let P := numbered (wideTree 0 0) (wideTree_deg 0 0)
    ∃ ids, Forall₂ (fun w id => ∃ x, x < P.size ∧ P.term x = true ∧ P.word x = w ∧
        id = ones P.term x) [[], [0], [1]] ids ∧
      t.indexBegin.bind (visited t.indexNext 4) = some ids ∧
      t.indexEnd.bind (visited t.indexPrev 4) = some ids.reverse := by
  intro t P
  have hstrings : P.strings = [[], [0], [1]] := by decide
  exact (ordered_ids_iff t P (skeletonOf_represents (wideTree_deg 0 0) (by decide) (by decide))
    [[], [0], [1]] (by decide) (fun w => by rw [← hstrings, mem_strings])).mpr (by decide)

def rootTree : LTree where
  deg := [0]
  ahead := by decide
  whole := rfl

theorem rootTree_deg (s : Nat) : rootTree.first (s + 1) ≤ rootTree.first s + 256 := by
  cases s <;> simp [rootTree, LTree.first]

/-- **ONLY THE EMPTY STRING**: behind its id, `state_next` reads where there is nothing. -/
theorem ordered_ids_root_undefined :
    let t := skeletonOf rootTree 1 (by decide)
    let P := numbered rootTree rootTree_deg
    t.Represents P ∧ P.strings = [[]] ∧ t.indexBegin = some 0 ∧ t.indexNext 0 = none :=
  ⟨skeletonOf_represents rootTree_deg (by decide) (by decide), by decide, rfl, rfl⟩

/-- **SO MANY STEPS** of `state_next` reach what `dict_rank_to_state` finds by halving. -/
theorem state_next_steps (t : Skeleton) (P : PTree) (hrep : t.Represents P)
    (hkids : P.first 0 < P.first 1)
    (hwidth : widestLayer P.toLTree % 2 ^ 32 = 1 → widestLayer P.toLTree = 1) (layers : Layers)
    (hinit : t.initForTerm = some layers) (n : Nat) (w : List Nat) (hw : P.strings[n]? = some w) :
    ∃ x, x < P.size ∧ P.term x = true ∧ P.word x = w ∧ t.dictRankToState layers n = some x ∧
      (·.bind t.stateNext)^[n] t.stateBegin = some x := by
  obtain ⟨rfl, hroom⟩ := hrep.init hinit
  obtain ⟨hbegin, hnext⟩ := forth_spec hrep hkids
  have hrun : ∀ i x, (P.dfs.filter P.term)[i]? = some x →
      (·.bind t.stateNext)^[i] t.stateBegin = some x := by
    intro i
    induction i with
    | zero =>
      intro x hx
      rwa [hx] at hbegin
    | succ i ih =>
      intro x hx
      have hi := getElem?_eq_getElem (Nat.lt_of_succ_lt (List.getElem_of_getElem? hx).1)
      rw [Function.iterate_succ_apply', ih _ hi, bind_some, hnext i _ hi, hx]
      rfl
  obtain ⟨l, x, hx, hterm, hword, rfl⟩ := exists_node_of_string hw
  refine ⟨x, hx.lt_size, hterm, hword, ?_, hrun _ x (terminal_iff.mpr ⟨l, hx, hterm, rfl⟩)⟩
  rw [← hrep.dfsRank_eq hx]
  exact dictRankToState_spec hrep.toCodes hroom hwidth hx ((hrep.termBit hx.lt_size).trans hterm)

/-- The second string of a trie with two. -/
theorem state_next_steps_two :
    let t := skeletonOf (wideTree 0 0) 2 (by decide)
    let P := numbered (wideTree 0 0) (wideTree_deg 0 0)
    ∃ layers x, x < P.size ∧ P.term x = true ∧ P.word x = [1] ∧
      t.dictRankToState layers 2 = some x ∧ (·.bind t.stateNext)^[2] t.stateBegin = some x := by
  intro t P
  have hle : _ ≤ 3 := widestLayer_le_size P.toLTree
  exact ⟨_, state_next_steps t P (skeletonOf_represents _ (by decide) (by decide)) (by decide)
    (by omega) _ rfl 2 _ (by decide)⟩

end NestLouds
