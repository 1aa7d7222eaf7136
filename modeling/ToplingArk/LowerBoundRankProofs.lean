import ToplingArk.LowerBoundProofs

/-! # `lower_bound` of a nested LOUDS trie — what it answers

    The rank that the walk has added up at a state is that of the way to it; `trans_state`
    completes it to the number of terminal states before the place where the word leaves the
    trie.  The walk through the cache leaves out the root.  The index is that of the string
    with this rank if the word ends inside an edge or at a state; where it leaves the trie
    between two states, `state_next` is asked for what comes after the second of them. -/

namespace NestLouds

open BitCount LevelTree Patricia RankSelectLine List Option Finset Nat

/-! ## The two parts of a rank -/

variable {l s c : Nat}

section Parts

variable {T : LTree} (f : Nat → Bool)

/-- The terminal nodes on the way to a node, layer by layer. -/
def pathRank (T : LTree) (f : Nat → Bool) (l s : Nat) : Nat :=
  ∑ i ∈ range (l + 1), (ones f (T.up s (l - i) + 1) - ones f (T.level i))

/-- The terminal nodes on the layers below, from `c` on the next one. -/
def restRank (T : LTree) (f : Nat → Bool) (l c : Nat) : Nat :=
  ∑ j ∈ range (T.height - (l + 1)), (ones f (T.down c j) - ones f (T.level (l + 1 + j)))

/-- At the root only its own string is counted. -/
theorem pathRank_root : pathRank T f 0 0 = ones f 1 := by
  rfl

/-- One step down, the layer of the child is added. -/
theorem pathRank_child (h : T.At l s) (h1 : T.first s ≤ c) (h2 : c < T.first (s + 1)) :
    pathRank T f (l + 1) c = pathRank T f l s + (ones f (c + 1) - ones f (T.level (l + 1))) := by
  unfold pathRank
  rw [Finset.sum_range_succ, Nat.sub_self]
  refine congrArg₂ _ (sum_congr rfl (fun i hi => ?_)) rfl
  have hlt := Finset.mem_range.mp hi
  rw [show l + 1 - i = (l - i) + 1 by omega, up_succ, h.parent_child h1 h2]

/-- The root is on every way. -/
theorem ones_le_pathRank (h : T.At l s) : ones f 1 ≤ pathRank T f l s := by
  have hroot : T.up s (l - 0) = 0 := by
    refine LTree.At.eq_zero (LTree.At.up ?_)
    rwa [zero_add]
  have hle := single_le_sum (f := fun i => ones f (T.up s (l - i) + 1) - ones f (T.level i))
    (fun i _ => zero_le _) (mem_range.mpr (succ_pos l))
  rwa [hroot, level_zero, ones_zero] at hle

/-- The layers below are added one by one. -/
theorem restRank_succ (hl : l + 1 < T.height) (c : Nat) :
    restRank T f l c = ones f c - ones f (T.level (l + 1)) + restRank T f (l + 1) (T.first c) := by
  unfold restRank
  rw [show T.height - (l + 1) = (T.height - (l + 1 + 1)) + 1 by omega, Finset.sum_range_succ',
    add_comm]
  refine congrArg₂ _ rfl (sum_congr rfl (fun j _ => ?_))
  rw [down_first, show l + 1 + (j + 1) = l + 1 + 1 + j by omega]

/-- **THE TWO PARTS** make up the total through a node. -/
theorem pathRank_add_restRank (h : T.At l s) (hc : T.level (l + 1) ≤ c) :
    pathRank T f l s + restRank T f l c + T.total f 0 0 = T.through f l s c := by
  have hlt := h.lt_height
  have hroot : T.total f 0 0 = (∑ i ∈ range (l + 1), ones f (T.level i)) +
      ∑ j ∈ range (T.height - (l + 1)), ones f (T.level (l + 1 + j)) := by
    unfold LTree.total
    conv_lhs => rw [show T.height = l + 1 + (T.height - (l + 1)) by omega]
    rw [sum_range_add]
    simp only [cut_root]
  have hpath : pathRank T f l s + ∑ i ∈ range (l + 1), ones f (T.level i) =
      ∑ i ∈ range (l + 1), ones f (T.up s (l - i) + 1) := by
    unfold pathRank
    rw [← sum_add_distrib]
    refine sum_congr rfl (fun i hi => Nat.sub_add_cancel (ones_mono f ?_))
    have hi' := Finset.mem_range.mp hi
    have hup : T.At i (T.up s (l - i)) := by
      refine LTree.At.up ?_
      rwa [Nat.add_sub_cancel' (by omega)]
    exact hup.1.trans (le_add_right _ 1)
  have hrest : restRank T f l c +
      ∑ j ∈ range (T.height - (l + 1)), ones f (T.level (l + 1 + j)) =
      T.mass f c (T.height - (l + 1)) := by
    unfold restRank LTree.mass
    rw [← sum_add_distrib]
    refine sum_congr rfl (fun j _ => Nat.sub_add_cancel (ones_mono f ?_))
    rw [level_add]
    exact down_mono j hc
  unfold LTree.through
  omega

end Parts

/-! ## `trans_state` -/

section Trans

variable {t : Skeleton} {P : PTree} {k x : Nat}

/-- The strings of a layer before `x`. -/
theorem Skeleton.Represents.share (h : t.Represents P) (hk : k < P.height) (h1 : P.level k ≤ x)
    (h2 : x ≤ P.size) :
    t.share (layersOf t P.toLTree) k x = some (ones P.term x - ones P.term (P.level k)) := by
  unfold Skeleton.share
  rw [h.rank1 h2]
  show ((table P.toLTree t.termBit)[k]?).bind _ = _
  rw [table_get _ hk]
  simp only [bind_some]
  rw [wsub_eq (ones_mono _ h1), h.ones_eq h2, h.ones_eq (level_le_size k)]

/-- The rank joins the index. -/
theorem Skeleton.Represents.transState (h : t.Represents P) (h1 : P.level k ≤ x) (h2 : x ≤ P.size)
    (rank : Nat) (dec : Bool) :
    t.transState (layersOf t P.toLTree) k rank x dec =
      (t.transIndex (layersOf t P.toLTree) k x dec).map (fun i =>
        (i, wsub (rank + restRank P.toLTree P.term k (P.first x)) (if dec then 1 else 0))) := by
  have hrest : ∑ j ∈ range (P.height - (k + 1)),
      (ones t.termBit (P.down x (j + 1)) - ones t.termBit (P.level (k + 1 + j))) =
      restRank P.toLTree P.term k (P.first x) := by
    refine sum_congr rfl (fun j _ => ?_)
    rw [down_first, h.ones_eq (down_le_size h2 _), h.ones_eq (level_le_size _)]
  show (t.transIndex _ k x dec).bind (fun index => (t.childLoop (table P.toLTree t.termBit) ((table
    P.toLTree t.termBit).length - _) x _ [] rank).bind _) = _
  rw [length_table, childLoop_spec h.toCodes rfl h1 h2, hrest]
  cases t.transIndex (layersOf t P.toLTree) k x dec <;> rfl

/-- The index that is stored where the path of a word ends. -/
def endIndex (t : Skeleton) (P : PTree) : Stop → Option Nat
  | .inside l s => t.transIndex (layersOf t P.toLTree) l s (P.term s)
  | .beyond l s => t.transIndex (layersOf t P.toLTree) l s false
  | .gap l _ c => t.transIndex (layersOf t P.toLTree) (l + 1) c false

/-- The terminal state that has been counted and is taken off again. -/
def endDec (P : PTree) : Stop → Nat
  | .inside _ s => if P.term s then 1 else 0
  | _ => 0

/-- What is stored where the path of a word ends, if `lost` has not been counted. -/
def answer (t : Skeleton) (P : PTree) (lost : Nat) (stop : Stop) : Option (Nat × Nat) :=
  (endIndex t P stop).map (fun i =>
    (i, wsub (P.passed stop + endDec P stop - lost) (endDec P stop)))

variable {lost : Nat}

/-- Before the first child the ranks of both parts meet. -/
theorem rank_first (hs : P.At l s) (hlost : lost ≤ ones P.term 1) :
    pathRank P.toLTree P.term l s - lost + restRank P.toLTree P.term l (P.first s) =
      P.dfsRank P.term l s + (if P.term s = true then 1 else 0) - lost := by
  have hlevel : P.level (l + 1) ≤ P.first s := by
    rw [level_succ]
    exact first_mono hs.1
  have hparts := pathRank_add_restRank P.term hs hlevel
  have hbase := total_zero_le P.term hs
  have hroot := ones_le_pathRank P.term hs
  rw [through_first P.term hs] at hparts
  unfold LTree.dfsRank
  omega

/-- The search stopped at a node, or on the edge to it. -/
theorem Skeleton.Represents.transAt (h : t.Represents P) (hs : P.At l s)
    (hlost : lost ≤ ones P.term 1) :
    t.transAt (layersOf t P.toLTree) l (pathRank P.toLTree P.term l s - lost) s =
      answer t P lost (.inside l s) := by
  unfold Skeleton.transAt
  rw [h.terms s hs.lt_size]
  simp only [bind_eq_bind, bind_some]
  rw [h.transState hs.1 hs.lt_size.le, rank_first hs hlost]
  rfl

/-- The search stopped at a leaf. -/
theorem Skeleton.Represents.transLeaf (h : t.Represents P) (hs : P.At l s)
    (hleaf : P.first (s + 1) = P.first s) (hlost : lost ≤ ones P.term 1) :
    t.transState (layersOf t P.toLTree) l (pathRank P.toLTree P.term l s - lost) s false =
      answer t P lost (.beyond l s) := by
  rw [h.transState hs.1 hs.lt_size.le, rank_first hs hlost, P.leaves s hs.lt_size hleaf]
  rfl

/-- The search stopped between two children. -/
theorem Skeleton.Represents.transGap (h : t.Represents P) {p : Nat} (hgap : P.Within (.gap l p c))
    (hlost : lost ≤ ones P.term 1) :
    t.transState (layersOf t P.toLTree) (l + 1)
      (pathRank P.toLTree P.term l p - lost + (ones P.term c - ones P.term (P.level (l + 1))))
      c false = answer t P lost (.gap l p c) := by
  obtain ⟨hp, h1, h2, hkids⟩ := hgap
  have hlevel : P.level (l + 1) ≤ c := by
    rw [level_succ]
    exact (first_mono hp.1).trans h1
  have hheight := (hp.child le_rfl hkids).lt_height
  have hsize : c ≤ P.size := h2.trans (first_le_size hp.lt_size)
  have hparts := pathRank_add_restRank P.term hp hlevel
  have hroot := ones_le_pathRank P.term hp
  rw [restRank_succ P.term hheight] at hparts
  rw [h.transState hlevel hsize]
  congr 1
  funext i
  refine congrArg (fun r => (i, wsub r 0)) ?_
  show _ = P.through P.term l p c - P.total P.term 0 0 + 0 - lost
  omega

end Trans

/-! ## The walks -/

section Walk

variable {t : Trie} {P : PTree} {lost fuel n : Nat} {w : List Nat} {cache : Cache}
  {slot : Nat → Nat}

theorem Trie.Carries.represents (h : t.Carries P) : t.toSkeleton.Represents P := h.toRepresents

/-- The edge string that is read is that of the tree. -/
theorem Trie.Carries.edge (h : t.Carries P) (hs : s < P.size) :
    ∃ zstr, t.edge s = some zstr ∧ ∀ w, readEdge zstr 0 w = meet (P.zdfa.zdata s) w := by
  have hlink := h.link s hs
  have hnone : P.zpath s = none → ∀ w, readEdge none 0 w = meet (P.zdfa.zdata s) w := by
    intro hz w
    show _ = meet ((P.zpath s).getD []) w
    rw [hz]
    rfl
  unfold Trie.edge
  cases hz : P.zpath s with
  | none =>
    rw [hz] at hlink
    refine ⟨none, ?_, hnone hz⟩
    rw [hlink]
    simp
  | some z =>
    rw [hz] at hlink
    have hany : t.hasLink = true :=
      any_eq_true.mpr ⟨true, mem_of_getElem? hlink, rfl⟩
    refine ⟨some z, ?_, fun w => ?_⟩
    · rw [if_pos hany, hlink, h.zpath s z hs hz]
      rfl
    · show meet (z.drop 0) w = meet ((P.zpath s).getD []) w
      rw [hz]
      rfl

theorem afterEdge_zero (zstr : Option (List Nat)) : afterEdge zstr 0 = 0 := ite_self 0

section

variable {s l : Nat} (h : t.Carries P) (hs : P.At l s) (hlost : lost ≤ ones P.term 1)

include h hs hlost

/-- No child has the letter. -/
theorem Trie.Carries.leave (hkids : P.first s < P.first (s + 1)) :
    t.leave (layersOf t.toSkeleton P.toLTree) l (pathRank P.toLTree P.term l s - lost) s
      (P.place s c) = answer t.toSkeleton P lost (.gap l s (P.place s c)) := by
  have hge := first_le_place (P := P) s c
  have hle : P.place s c ≤ P.first (s + 1) := place_le
  have hsize : P.place s c ≤ P.size := hle.trans (first_le_size hs.lt_size)
  have hheight := (hs.child le_rfl hkids).lt_height
  have hlevel : P.level (l + 1) ≤ P.place s c := by
    rw [level_succ]
    exact (first_mono hs.1).trans hge
  have hnil := h.represents.lt_nilState
  unfold Trie.leave
  rw [if_neg (by omega), h.represents.share hheight hlevel hsize]
  exact h.represents.transGap ⟨hs, hge, hle, hkids⟩ hlost

/-- The word has a greater byte than the edge string. -/
theorem Trie.Carries.transAbove (hmeet : meet (P.zdfa.zdata s) w = .above) :
    t.transState (layersOf t.toSkeleton P.toLTree) l (pathRank P.toLTree P.term l s - lost) (s + 1)
      false = answer t.toSkeleton P lost (.gap (l - 1) (P.parent s) (s + 1)) := by
  cases l with
  | zero =>
    rw [hs.eq_zero, zdata_root] at hmeet
    cases hmeet
  | succ l =>
    have h1 := first_parent_le (T := P.toLTree) hs.pos
    have h2 := lt_first_parent_succ hs.lt_size
    have hgap : P.Within (.gap l (P.parent s) (s + 1)) :=
      ⟨hs.parent, h1.trans (le_add_right s 1), h2, by omega⟩
    have hroot := ones_le_pathRank P.term hs.parent
    have htrans := h.represents.transGap hgap hlost
    rw [show pathRank P.toLTree P.term (l + 1) s - lost =
      pathRank P.toLTree P.term l (P.parent s) - lost +
        (ones P.term (s + 1) - ones P.term (P.level (l + 1))) by
      rw [pathRank_child P.term hs.parent h1 h2]
      omega]
    exact htrans

/-- The rank after a step to the child with the letter. -/
theorem Trie.Carries.step (hv : P.hasLetter s c = true) :
    P.At (l + 1) (P.place s c) ∧
      ∃ part, t.share (layersOf t.toSkeleton P.toLTree) (l + 1) (P.place s c + 1) = some part ∧
        pathRank P.toLTree P.term l s - lost + part =
          pathRank P.toLTree P.term (l + 1) (P.place s c) - lost := by
  have hge := first_le_place (P := P) s c
  obtain ⟨hin, -⟩ := letter_place hv
  have hat := hs.child hge hin
  have hroot := ones_le_pathRank P.term hs
  refine ⟨hat, _, h.represents.share hat.lt_height (hat.1.trans (le_add_right _ 1)) hat.lt_size, ?_⟩
  rw [pathRank_child P.term hs hge hin]
  omega

/-- A step below a state of the trie, if the walk goes on well. -/
theorem Trie.Carries.moveOn {v : List Nat} (zstr : Option (List Nat)) (hc : c < 256)
    (hnext : P.At (l + 1) (P.place s c) →
      t.walk (layersOf t.toSkeleton P.toLTree) fuel (P.place s c) 0 (l + 1)
        (pathRank P.toLTree P.term (l + 1) (P.place s c) - lost) v =
        answer t.toSkeleton P lost (P.stopFrom fuel (l + 1) (P.place s c) v)) :
    ((t.stateMoveLowerBoundSmart s c).bind (fun mr =>
      if mr.2 then
        (t.share (layersOf t.toSkeleton P.toLTree) (l + 1) (mr.1 + 1)).bind (fun part =>
          t.walk (layersOf t.toSkeleton P.toLTree) fuel mr.1 (afterEdge zstr 0) (l + 1)
            (pathRank P.toLTree P.term l s - lost + part) v)
      else t.leave (layersOf t.toSkeleton P.toLTree) l (pathRank P.toLTree P.term l s - lost) s
        mr.1)) =
      answer t.toSkeleton P lost (if P.first (s + 1) = P.first s then .beyond l s
        else if P.hasLetter s c then P.stopFrom fuel (l + 1) (P.place s c) v
        else .gap l s (P.place s c)) := by
  rw [stateMoveLowerBoundSmart_spec h hs.lt_size hc]
  by_cases hleaf : P.first (s + 1) = P.first s
  · rw [if_pos hleaf, if_pos hleaf]
    exact h.represents.transLeaf hs hleaf hlost
  have hmono := first_mono (T := P.toLTree) (le_add_right s 1)
  rw [if_neg hleaf, if_neg hleaf]
  simp only [bind_some]
  by_cases hv : P.hasLetter s c = true
  · obtain ⟨hat, part, hshare, hrank⟩ := h.step hs hlost hv
    rw [if_pos hv, if_pos hv, hshare]
    simp only [bind_some]
    rw [hrank, afterEdge_zero]
    exact hnext hat
  · rw [if_neg hv, if_neg hv]
    exact h.leave hs hlost (by omega)

end

/-- **THE WALK ENDS WHERE THE PATH OF THE WORD ENDS.** -/
theorem walk_spec (h : t.Carries P) (hlost : lost ≤ ones P.term 1) (hs : P.At l s)
    (hfuel : w.length < fuel) (hw : ∀ b ∈ w, b < 256) :
    t.walk (layersOf t.toSkeleton P.toLTree) fuel s 0 l (pathRank P.toLTree P.term l s - lost) w =
      answer t.toSkeleton P lost (P.stopFrom fuel l s w) := by
  induction fuel generalizing l s w with
  | zero => cases hfuel
  | succ fuel ih =>
    obtain ⟨zstr, hedge, hread⟩ := h.edge hs.lt_size
    rw [Trie.walk, hedge]
    simp only [bind_eq_bind, bind_some]
    rw [hread, PTree.stopFrom]
    cases hmeet : meet (P.zdfa.zdata s) w with
    | short => exact h.represents.transAt hs hlost
    | below => exact h.represents.transAt hs hlost
    | above => exact h.transAbove hs hlost hmeet
    | rest v =>
      cases v with
      | nil => exact h.represents.transAt hs hlost
      | cons c v =>
        have hlen := rest_length (meet_rest hmeet)
        have hmem : ∀ b ∈ c :: v, b < 256 := fun b hb =>
          hw b (by rw [meet_rest hmeet]; exact mem_append_right _ hb)
        exact h.moveOn hs hlost zstr (hmem c mem_cons_self) (fun hat =>
          ih hat (by omega) (fun b hb => hmem b (mem_cons_of_mem _ hb)))

/-- The edge string that is read in the cache is that of the tree. -/
theorem Cache.Mirrors.edge (hm : cache.Mirrors P n slot) (h : t.Carries P) (hs : s < n) :
    ∃ zstr, t.cacheEdge cache (slot s) = some zstr ∧
      ∀ w, readEdge zstr 0 w = meet (P.zdfa.zdata s) w := by
  obtain ⟨cell, next, hcell, hnext, -, hle, hslice, -⟩ := hm.cell s hs
  unfold Trie.cacheEdge
  by_cases hlink : t.hasLink = true
  · rw [if_pos hlink]
    unfold Cache.edge
    rw [hcell, hnext]
    refine ⟨_, rfl, fun w => ?_⟩
    split
    · rw [hslice]
      rfl
    · rw [show next.zpOffset - cell.zpOffset = 0 by omega] at hslice
      rw [← hslice]
      rfl
  · -- without links there are no edge strings in the tree
    obtain ⟨zstr, hedge, hread⟩ := h.edge (hs.trans_le hm.le)
    rw [if_neg hlink]
    unfold Trie.edge at hedge
    rw [if_neg hlink] at hedge
    exact ⟨zstr, hedge, hread⟩

/-- **THE WALK THROUGH THE CACHE** ends there as well. -/
theorem cacheWalk_spec (h : t.Carries P) (hlost : lost ≤ ones P.term 1)
    (hm : cache.Mirrors P n slot) (hs : P.At l s) (hn : s < n) (hfuel : w.length < fuel)
    (hw : ∀ b ∈ w, b < 256) :
    t.cacheWalk (layersOf t.toSkeleton P.toLTree) cache fuel (slot s) 0 l
      (pathRank P.toLTree P.term l s - lost) w =
      answer t.toSkeleton P lost (P.stopFrom fuel l s w) := by
  induction fuel generalizing l s w with
  | zero => cases hfuel
  | succ fuel ih =>
    obtain ⟨zstr, hedge, hread⟩ := hm.edge h hn
    obtain ⟨cell, next, hcell, -, hmap, -, -, hchild⟩ := hm.cell s hn
    rw [Trie.cacheWalk, hcell, hedge]
    simp only [bind_eq_bind, bind_some]
    rw [hread, PTree.stopFrom, hmap]
    cases hmeet : meet (P.zdfa.zdata s) w with
    | short => exact h.represents.transAt hs hlost
    | below => exact h.represents.transAt hs hlost
    | above => exact h.transAbove hs hlost hmeet
    | rest v =>
      cases v with
      | nil => exact h.represents.transAt hs hlost
      | cons c v =>
        have hlen := rest_length (meet_rest hmeet)
        have hmem : ∀ b ∈ c :: v, b < 256 := fun b hb =>
          hw b (by rw [meet_rest hmeet]; exact mem_append_right _ hb)
        have hrest : ∀ b ∈ v, b < 256 := fun b hb => hmem b (mem_cons_of_mem _ hb)
        have hc := hmem c mem_cons_self
        obtain ⟨child, hget, hiff, hslot⟩ := hchild c hc
        dsimp only
        rw [hget]
        simp only [bind_some]
        -- a cached child names its parent
        by_cases hparent : child.parent = slot s
        · -- the child is cached
          obtain ⟨hv, hplace⟩ := hiff.mp hparent
          obtain ⟨hat, part, hshare, hrank⟩ := h.step hs hlost hv
          obtain ⟨cell', -, hcell', -, hmap', -⟩ := hm.cell _ hplace
          have hleaf : ¬ P.first (s + 1) = P.first s := by
            have h1 := first_le_place (P := P) s c
            have h2 := (letter_place hv).1
            omega
          rw [hslot hparent, hget] at hcell'
          obtain rfl := some.inj hcell'
          rw [if_pos hparent, hmap', hshare, if_neg hleaf, if_pos hv, ← hslot hparent]
          simp only [bind_some]
          rw [hrank, afterEdge_zero]
          exact ih hat hplace (by omega) hrest
        · -- the cache ends here
          rw [if_neg hparent]
          exact h.moveOn hs hlost zstr hc (fun hat => walk_spec h hlost hat (by omega) hrest)

/-- The number of terminal states that the walk does not count: the root, with a cache. -/
def uncounted (P : PTree) (cache : Option Cache) : Nat := if cache.isSome then ones P.term 1 else 0

/-- A search from the root. -/
def fromRoot : MatchContext := ⟨0, 0, 0⟩

/-- **`lower_bound` FROM THE ROOT.** -/
theorem lowerBound_spec (h : t.Carries P) (hw : ∀ b ∈ w, b < 256) {cache : Option Cache}
    (hcache : ∀ c ∈ cache, ∃ n slot, c.Mirrors P n slot) :
    t.lowerBound (layersOf t.toSkeleton P.toLTree) fromRoot w cache =
      answer t.toSkeleton P (uncounted P cache) (P.stop w) := by
  have hroot := pathRank_root (T := P.toLTree) P.term
  cases cache with
  | none =>
    have hwalk := walk_spec h (zero_le (ones P.term 1)) at_zero (lt_succ_self w.length) hw
    have hshare : t.share (layersOf t.toSkeleton P.toLTree) 0 1 = some (ones P.term 1) := by
      rw [h.represents.share height_pos (zero_le 1) size_pos, level_zero]
      rfl
    unfold Trie.lowerBound
    rw [hshare]
    show t.walk _ (w.length + 1) 0 0 0 (0 + ones P.term 1) w = _
    rw [zero_add]
    exact hwalk
  | some c =>
    obtain ⟨n, slot, hm⟩ := hcache c rfl
    have hwalk := cacheWalk_spec h (le_refl (ones P.term 1)) hm at_zero hm.pos
      (lt_succ_self w.length) hw
    rw [hroot, Nat.sub_self, hm.root] at hwalk
    exact hwalk

end Walk

end NestLouds
