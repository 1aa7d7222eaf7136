import ToplingArk.PatriciaSearchProofs
import ToplingArk.TrieLabelProofs

/-! # `lower_bound` of a nested LOUDS trie — the walk, and where it ends

    The walk follows a word from the root, in the double array of the cache as long as the
    states are there, and then in the trie itself.  On the way it adds up the terminal
    states of each layer up to the state.  Where the path leaves the trie, `trans_state`
    adds the terminal states of the layers below, and takes for the index the state itself
    or what `state_next` finds.

    What is undefined is `none`; this includes `select1` of a state that does not exist. -/

namespace NestLouds

open BitCount LevelTree Patricia RankSelectLine List Option

/-! ## The model -/

namespace Skeleton

variable (t : Skeleton)

/-- `m_louds.select1(state)` -/
def select1 (state : Nat) : Option Nat :=
  if state < t.louds.face.maxRank1 then t.louds.face.select1 state else none

/-- The inner loop of `state_next`: to the next brother of the nearest ancestor that has one. -/
def climb : Nat → Nat → Nat → Option Nat
  | 0, _, _ => none
  | fuel + 1, state, bitpos =>
    let parent := wsub (wsub bitpos state) 1
    if parent = 0 then some nilState
    else do
      let bitpos ← t.select1 parent
      let brother ← t.louds.bits[bitpos + 1]?
      if brother then some (parent + 1) else climb fuel parent bitpos

/-- A round of `state_next`: to the first child, to the next brother, or up. -/
def follow (state : Nat) : Option Nat := do
  let bitpos ← t.louds.face.select0 state
  let child ← t.louds.bits[bitpos + 1]?
  if child then some (wsub bitpos state)
  else do
    let bitpos ← t.select1 state
    let brother ← t.louds.bits[bitpos + 1]?
    if brother then some (state + 1) else t.climb t.louds.bits.length state bitpos

/-- The loop of `state_next`, by its rounds. -/
def stateNextLoop : Nat → Nat → Option Nat
  | 0, _ => none
  | fuel + 1, state => do
    let next ← t.follow state
    if next = nilState then some nilState
    else do
      let term ← t.isTerm.bits[next]?
      if term then some next else stateNextLoop fuel next

/-- `state_next` -/
def stateNext (state : Nat) : Option Nat := t.stateNextLoop t.louds.bits.length state

/-- `dec && is_term[state]` -/
def decTerm (state : Nat) (dec : Bool) : Option Bool :=
  if dec then t.isTerm.bits[state]? else some false

variable (layers : Layers)

/-- What `trans_state` stores in `*index`. -/
def transIndex (layer state : Nat) (dec : Bool) : Option Nat := do
  let ref ← layers.ref[layer]?
  if state = ref.fin then some nilState
  else do
    let term ← t.decTerm state dec
    if term then t.isTerm.face.rank1 state
    else do
      let fixedState ← t.stateNext state
      if fixedState ≠ nilState then t.isTerm.face.rank1 fixedState else some nilState

/-- `trans_state`: `*index` and `*dict_rank`. -/
def transState (layer rank state : Nat) (dec : Bool) : Option (Nat × Nat) := do
  let index ← t.transIndex layers layer state dec
  let below ← t.childLoop layers.idRank (layers.idRank.length - (layer + 1))
    state (layer + 1) [] rank
  some (index, wsub below.2 (if dec then 1 else 0))

/-- `trans_state(curr, is_term.is1(curr))` -/
def transAt (layer rank curr : Nat) : Option (Nat × Nat) := do
  let term ← t.isTerm.bits[curr]?
  t.transState layers layer rank curr term

/-- The terminal states of a layer that are before a state. -/
def share (layer state : Nat) : Option Nat := do
  let r ← t.isTerm.face.rank1 state
  let base ← layers.idRank[layer]?
  some (wsub r base.2)

/-- The loop over the ancestors of a state that the walk starts with. -/
def startLoop (layers : Layers) : Nat → Nat → Nat → Nat → Option Nat
  | 0, _, _, _ => none
  | fuel + 1, parent, parentLayer, rank => do
    let part ← t.share layers (wsub parentLayer 1) (parent + 1)
    let bitpos ← t.select1 parent
    let up := wsub (wsub bitpos parent) 1
    if up = 0 then some (rank + part)
    else startLoop layers fuel up (wsub parentLayer 1) (rank + part)

/-- The layer and the rank that the walk starts with. -/
def startRank (root : Nat) : Option (Nat × Nat) :=
  if root = 0 then some (0, 0)
  else do
    let layer ← layerOf layers.idRank root
    let rank ← t.startLoop layers t.louds.bits.length root layer 0
    some (layer, rank)

end Skeleton

/-- `MatchContext`, as far as it is read here. -/
structure MatchContext where
  root : Nat
  pos : Nat
  zidx : Nat

/-- `NTD_CacheState` -/
structure CacheState where
  child0 : Nat
  parent : Nat
  mapState : Nat
  zpOffset : Nat
deriving DecidableEq, Repr

/-- `NTD_CacheTrie`: the double array, and the edge strings one after the other. -/
structure Cache where
  da : List CacheState
  zpData : List Nat

/-- The edge string of a cached state: from its offset to that of the next cell. -/
def Cache.edge (cache : Cache) (curr : Nat) : Option (Option (List Nat)) := do
  let cell ← cache.da[curr]?
  let next ← cache.da[curr + 1]?
  some (if cell.zpOffset < next.zpOffset then
      some ((cache.zpData.drop cell.zpOffset).take (next.zpOffset - cell.zpOffset))
    else none)

/-- The loop that reads an edge string from position `j` on; without one nothing is read. -/
def readEdge (zstr : Option (List Nat)) (j : Nat) (word : List Nat) : Meet :=
  match zstr with
  | some zs => meet (zs.drop j) word
  | none => .rest word

/-- The position in the edge string afterwards. -/
def afterEdge (zstr : Option (List Nat)) (j : Nat) : Nat := if zstr.isSome then 0 else j

namespace Trie

variable (t : Trie)

/-- The edge string of a state, `get_zpath_data` if `is_pzip`. -/
def edge (curr : Nat) : Option (Option (List Nat)) :=
  if t.hasLink then do
    let pzip ← t.isLink[curr]?
    if pzip then (t.zpathData curr).map some else some none
  else some none

/-- The edge string of a cell of the cache. -/
def cacheEdge (cache : Cache) (curr : Nat) : Option (Option (List Nat)) :=
  if t.hasLink then cache.edge curr else some none

/-- No child has the letter: `next` is the place where it would be, or nil. -/
def leave (layers : Layers) (layer rank curr next : Nat) : Option (Nat × Nat) :=
  if next = nilState then t.transState layers layer rank curr false
  else do
    let part ← t.share layers (layer + 1) next
    t.transState layers (layer + 1) (rank + part) next false

/-- The loop over the states of the trie. -/
def walk (layers : Layers) : Nat → Nat → Nat → Nat → Nat → List Nat → Option (Nat × Nat)
  | 0, _, _, _, _, _ => none
  | fuel + 1, curr, j, layer, rank, word => do
    let zstr ← t.edge curr
    match readEdge zstr j word with
    | .above => t.transState layers layer rank (curr + 1) false
    | .below => t.transAt layers layer rank curr
    | .short => t.transAt layers layer rank curr
    | .rest [] => t.transAt layers layer rank curr
    | .rest (ch :: rest) => do
      let mr ← t.stateMoveLowerBoundSmart curr ch
      if mr.2 then do
        let part ← t.share layers (layer + 1) (mr.1 + 1)
        walk layers fuel mr.1 (afterEdge zstr j) (layer + 1) (rank + part) rest
      else t.leave layers layer rank curr mr.1

/-- The loop over the cells of the cache, which goes on in the trie where the cache ends. -/
def cacheWalk (layers : Layers) (cache : Cache) :
    Nat → Nat → Nat → Nat → Nat → List Nat → Option (Nat × Nat)
  | 0, _, _, _, _, _ => none
  | fuel + 1, curr, j, layer, rank, word => do
    let cell ← cache.da[curr]?
    let zstr ← t.cacheEdge cache curr
    match readEdge zstr j word with
    | .above => t.transState layers layer rank (cell.mapState + 1) false
    | .below => t.transAt layers layer rank cell.mapState
    | .short => t.transAt layers layer rank cell.mapState
    | .rest [] => t.transAt layers layer rank cell.mapState
    | .rest (ch :: rest) => do
      let child ← cache.da[cell.child0 + ch]?
      if child.parent = curr then do
        let part ← t.share layers (layer + 1) (child.mapState + 1)
        cacheWalk layers cache fuel (cell.child0 + ch) (afterEdge zstr j) (layer + 1)
          (rank + part) rest
      else do
        let mr ← t.stateMoveLowerBoundSmart cell.mapState ch
        if mr.2 then do
          let part ← t.share layers (layer + 1) (mr.1 + 1)
          t.walk layers fuel mr.1 (afterEdge zstr j) (layer + 1) (rank + part) rest
        else t.leave layers layer rank cell.mapState mr.1

/-- `lower_bound`, with both pointers given: `*index` and `*dict_rank`. -/
def lowerBound (layers : Layers) (ctx : MatchContext) (word : List Nat) (cache : Option Cache) :
    Option (Nat × Nat) := do
  let start ← t.startRank layers ctx.root
  match cache, decide (ctx.root = 0) with
  | some cache, true =>
    t.cacheWalk layers cache (word.length + 1) ctx.root ctx.zidx start.1 start.2
      (word.drop ctx.pos)
  | _, _ => do
    let part ← t.share layers 0 1
    t.walk layers (word.length + 1) ctx.root ctx.zidx start.1 (start.2 + part) (word.drop ctx.pos)

end Trie

/-- The cache of the first `n` states: `slot` gives their cells.  Where a cell says that it is a
    child of another, the states are parent and child. -/
structure Cache.Mirrors (cache : Cache) (P : PTree) (n : Nat) (slot : Nat → Nat) : Prop where
  pos : 0 < n
  le : n ≤ P.size
  root : slot 0 = 0
  cell : ∀ s, s < n → ∃ cell next, cache.da[slot s]? = some cell ∧
    cache.da[slot s + 1]? = some next ∧ cell.mapState = s ∧ cell.zpOffset ≤ next.zpOffset ∧
    (cache.zpData.drop cell.zpOffset).take (next.zpOffset - cell.zpOffset) = P.zdfa.zdata s ∧
    ∀ b, b < 256 → ∃ child, cache.da[cell.child0 + b]? = some child ∧
      (child.parent = slot s ↔ P.hasLetter s b = true ∧ P.place s b < n) ∧
      (child.parent = slot s → slot (P.place s b) = cell.child0 + b)

/-! ## `state_next` -/

section Next

variable {t : Skeleton} {P : PTree} {l s : Nat}

/-- The node that comes next in depth-first order. -/
def Follows (P : PTree) (f : Nat → Bool) (total r : Nat) : Prop :=
  (r = nilState ∧ total = P.total f 0 0 + P.dfs.countP f) ∨
    ∃ l, P.At l r ∧ 0 < r ∧ P.total f l r = total

/-- `select1` leads from a node to its parent. -/
theorem Skeleton.Codes.select1_pos (h : t.Codes P.toLTree) (hs : P.At (l + 1) s) :
    t.select1 s = some (s + P.parent s + 1) := by
  unfold Skeleton.select1
  rw [h.maxRank1, if_pos hs.lt_size]
  exact h.select1 hs

/-- The bit behind the one of a state tells whether it has a next brother. -/
theorem Skeleton.Codes.brother (h : t.Codes P.toLTree) (hs : P.At (l + 1) s) :
    t.louds.bits[s + P.parent s + 1 + 1]? = some (decide (s + 1 < P.first (P.parent s + 1))) := by
  rw [h.louds]
  exact Louds.bit_brother (first_parent_le hs.pos) (lt_first_parent_succ hs.lt_size)
    hs.parent.lt_size

theorem wsub_parent (s p : Nat) : wsub (wsub (s + p + 1) s) 1 = p := by
  have hinner : wsub (s + p + 1) s = p + 1 := by
    rw [wsub_eq (by omega)]
    omega
  rw [hinner, wsub_eq (by omega), Nat.add_sub_cancel]

/-- **UP TO AN ANCESTOR WITH A NEXT BROTHER**, if there is one: what comes behind is the same for
    a last child and its parent. -/
theorem climb_spec (h : t.Codes P.toLTree) {fuel : Nat} (hs : P.At (l + 1) s)
    (hlast : s + 1 = P.first (P.parent s + 1)) (hfuel : l < fuel) :
    ∃ r, t.climb fuel s (s + P.parent s + 1) = some r ∧
      ∀ f, Follows P f (P.after f (l + 1) s) r := by
  induction l generalizing s fuel with
  | zero =>
    obtain ⟨fuel, rfl⟩ : ∃ n, fuel = n + 1 := ⟨fuel - 1, by omega⟩
    have hp := hs.parent
    refine ⟨nilState, ?_, fun f => .inl ⟨rfl, ?_⟩⟩
    · rw [Skeleton.climb, wsub_parent]
      exact if_pos hp.eq_zero
    · rw [after_child f hp (first_parent_le hs.pos) (lt_first_parent_succ hs.lt_size), hlast,
        through_last f hp, hp.eq_zero, after_root]
  | succ l ih =>
    obtain ⟨fuel, rfl⟩ : ∃ n, fuel = n + 1 := ⟨fuel - 1, by omega⟩
    have hp := hs.parent
    -- behind the last child is behind the parent
    have hbehind : ∀ f, P.after f (l + 1 + 1) s = P.after f (l + 1) (P.parent s) := by
      intro f
      rw [after_child f hp (first_parent_le hs.pos) (lt_first_parent_succ hs.lt_size), hlast,
        through_last f hp]
    have hclimb : t.climb (fuel + 1) s (s + P.parent s + 1) =
        if P.parent s + 1 < P.first (P.parent (P.parent s) + 1) then some (P.parent s + 1)
        else t.climb fuel (P.parent s) (P.parent s + P.parent (P.parent s) + 1) := by
      rw [Skeleton.climb, wsub_parent, if_neg hp.pos.ne', h.select1_pos hp]
      simp only [bind_eq_bind, bind_some]
      rw [h.brother hp]
      simp only [bind_some, decide_eq_true_eq]
    rw [hclimb]
    -- the parent's next brother, or further up
    by_cases hbro : P.parent s + 1 < P.first (P.parent (P.parent s) + 1)
    · have hge := first_parent_le (T := P.toLTree) hp.pos
      rw [if_pos hbro]
      refine ⟨P.parent s + 1, rfl, fun f => .inr ⟨l + 1, ?_, Nat.succ_pos _, ?_⟩⟩
      · exact hp.parent.child (by omega) hbro
      · rw [hbehind, after_child f hp.parent hge (by omega),
          through_child f hp.parent (by omega) hbro]
    · have hlt := lt_first_parent_succ hp.lt_size
      rw [if_neg hbro]
      obtain ⟨r, hr, hnext⟩ := ih hp (by omega) (show l < fuel by omega)
      refine ⟨r, hr, fun f => ?_⟩
      rw [hbehind]
      exact hnext f

/-- **A ROUND GOES TO THE NEXT NODE** in depth-first order; only a root without children has no
    way to go. -/
theorem follow_spec (h : t.Codes P.toLTree) (hs : P.At l s)
    (hne : 0 < s ∨ P.first s < P.first (s + 1)) :
    ∃ r, t.follow s = some r ∧ ∀ f, Follows P f (P.total f l s + (if f s then 1 else 0)) r := by
  have hchild : t.louds.bits[s + P.first s + 1]? = some (decide (P.first s < P.first (s + 1))) := by
    rw [h.louds]
    exact Louds.bit_child hs.lt_size
  have hwsub : wsub (s + P.first s) s = P.first s := by
    rw [wsub_eq (by omega)]
    omega
  unfold Skeleton.follow
  rw [h.select0 hs.lt_size.le]
  simp only [bind_eq_bind, bind_some]
  rw [hchild]
  simp only [bind_some, decide_eq_true_eq]
  -- the first child, else the next brother, else that of an ancestor
  by_cases hkids : P.first s < P.first (s + 1)
  · have hat := hs.child le_rfl hkids
    rw [if_pos hkids, hwsub]
    refine ⟨P.first s, rfl, fun f => .inr ⟨l + 1, hat, hat.pos, ?_⟩⟩
    rw [← through_child f hs le_rfl hkids, through_first f hs]
  have hpos : 0 < s := hne.resolve_right hkids
  have hleaf : P.first (s + 1) = P.first s := by
    have := first_mono (T := P.toLTree) (Nat.le_add_right s 1)
    omega
  obtain ⟨l, rfl⟩ : ∃ k, l = k + 1 := by
    cases l with
    | zero => exact absurd hs.eq_zero hpos.ne'
    | succ l => exact ⟨l, rfl⟩
  have hge := first_parent_le (T := P.toLTree) hs.pos
  have hlt := lt_first_parent_succ hs.lt_size
  rw [if_neg hkids, h.select1_pos hs]
  simp only [bind_some]
  rw [h.brother hs]
  simp only [bind_some, decide_eq_true_eq]
  split
  next hbro =>
    refine ⟨s + 1, rfl, fun f => .inr ⟨l + 1, hs.parent.child (by omega) hbro, Nat.succ_pos _, ?_⟩⟩
    rw [← after_leaf f hs hleaf, after_child f hs.parent hge hlt,
      through_child f hs.parent (by omega) hbro]
  have hfuel : l < t.louds.bits.length := by
    have h1 := hs.lt_height
    have h2 := height_le_size (T := P.toLTree)
    rw [h.louds, Louds.length_bits]
    omega
  obtain ⟨r, hr, hnext⟩ := climb_spec h hs (by omega) hfuel
  refine ⟨r, hr, fun f => ?_⟩
  rw [← after_leaf f hs hleaf]
  exact hnext f

/-- The next terminal node, or the end. -/
def NextTerm (P : PTree) (rank r : Nat) : Prop :=
  (r = nilState ∧ rank = P.strings.length) ∨
    ∃ l, P.At l r ∧ P.term r = true ∧ P.dfsRank P.term l r = rank

/-- Every terminal state has one string. -/
theorem strings_length : P.strings.length = P.dfs.countP P.term := by
  rw [strings_eq_dfs, length_map, ← countP_eq_length_filter]

/-- **`state_next` FINDS THE NEXT TERMINAL STATE** in depth-first order. -/
theorem stateNext_spec (h : t.Represents P) (hs : P.At l s)
    (hne : 0 < s ∨ P.first s < P.first (s + 1)) :
    ∃ r, t.stateNext s = some r ∧
      NextTerm P (P.dfsRank P.term l s + (if P.term s then 1 else 0)) r := by
  -- the number of nodes before the state, terminal or not, grows with every round
  have key : ∀ fuel l s, P.At l s → (0 < s ∨ P.first s < P.first (s + 1)) →
      P.total (fun _ => true) 0 0 + P.dfs.length < P.total (fun _ => true) l s + 1 + fuel →
      ∃ r, t.stateNextLoop fuel s = some r ∧
        NextTerm P (P.dfsRank P.term l s + (if P.term s then 1 else 0)) r := by
    intro fuel
    induction fuel with
    | zero =>
      intro l s hs hne hfuel
      obtain ⟨r, -, hnext⟩ := follow_spec h.toCodes hs hne
      rcases hnext (fun _ => true) with ⟨-, hend⟩ | ⟨l', hl', -, htotal⟩
      · rw [countP_true, if_pos rfl] at hend
        omega
      have hvisit := dfsRank_lt_length (fun _ => true) hl'
      unfold LTree.dfsRank at hvisit
      rw [if_pos rfl] at htotal
      omega
    | succ fuel ih =>
      intro l s hs hne hfuel
      have hbase := total_zero_le (T := P.toLTree) P.term hs
      obtain ⟨r, hr, hnext⟩ := follow_spec h.toCodes hs hne
      rw [Skeleton.stateNextLoop, hr]
      simp only [bind_eq_bind, bind_some]
      have hstep := hnext P.term
      have hgrow := hnext (fun _ => true)
      by_cases hnil : r = nilState
      · rw [if_pos hnil]
        refine ⟨nilState, rfl, .inl ⟨rfl, ?_⟩⟩
        rcases hstep with ⟨-, hend⟩ | ⟨l', hl', -, -⟩
        · rw [strings_length]
          unfold LTree.dfsRank
          omega
        · have := hl'.lt_size
          have := h.lt_nilState
          omega
      obtain ⟨l', hl', hpos, htotal⟩ := hstep.resolve_left (fun hn => hnil hn.1)
      obtain ⟨k', hk', -, htrue⟩ := hgrow.resolve_left (fun hn => hnil hn.1)
      obtain rfl := hk'.unique hl'
      have hrank : P.dfsRank P.term k' r =
          P.dfsRank P.term l s + (if P.term s then 1 else 0) := by
        unfold LTree.dfsRank
        omega
      rw [if_neg hnil, h.terms r hl'.lt_size]
      simp only [bind_some]
      cases hterm : P.term r with
      | true => exact ⟨r, rfl, .inr ⟨k', hl', hterm, hrank⟩⟩
      | false =>
        rw [if_neg (by decide)]
        rw [if_pos rfl] at htrue
        have hrest := ih k' r hl' (.inl hpos) (by omega)
        rw [hterm, hrank] at hrest
        exact hrest
  refine key _ l s hs hne ?_
  have hbase := total_zero_le (T := P.toLTree) (fun _ => true) hs
  have hlen := length_dfs_le (T := P.toLTree)
  rw [h.louds, Louds.length_bits]
  omega

/-- **THE ROOT HAS NO PARENT**: without children, `state_next` reads where there is nothing. -/
theorem stateNext_root (h : t.Represents P) (hleaf : P.first 1 = P.first 0) :
    t.stateNext 0 = none := by
  have hselect : t.louds.face.select1 0 = some 0 := by
    have hlt : 0 < t.louds.face.maxRank1 := by
      rw [h.maxRank1]
      exact size_pos
    obtain ⟨p, hp, -, hsel⟩ := t.louds.correct.select1 0 hlt
    have hbit : ofList t.louds.bits 0 = true := by
      rw [h.louds]
      rfl
    rw [hp, hsel.unique ⟨hbit, ones_zero _⟩]
  have hsel0 : t.select1 0 = some 0 := by
    unfold Skeleton.select1
    rw [h.maxRank1, if_pos size_pos, hselect]
  have hselnil : t.select1 nilState = none := by
    unfold Skeleton.select1
    rw [h.maxRank1, if_neg (by have := h.lt_nilState; omega)]
  have hlen : t.louds.bits.length = 2 * P.size + 1 := by rw [h.louds, Louds.length_bits]
  have hzero : t.louds.bits[0 + 1]? = some false := by
    rw [h.louds]
    rfl
  have hchild : t.louds.bits[0 + P.first 0 + 1]? = some false := by
    rw [h.louds, Louds.bit_child size_pos, hleaf, decide_eq_false (Nat.lt_irrefl _)]
  -- the number of the parent wraps round, and `select1` has no such bit
  have hfollow : t.follow 0 = none := by
    unfold Skeleton.follow
    rw [h.select0 (Nat.zero_le _)]
    simp only [bind_eq_bind, bind_some]
    rw [hchild]
    simp only [bind_some]
    rw [hsel0]
    simp only [bind_some]
    rw [hzero]
    simp only [bind_some]
    rw [hlen, Skeleton.climb]
    have hwrap : wsub (wsub 0 0) 1 = nilState := by decide
    rw [hwrap, hselnil]
    rfl
  unfold Skeleton.stateNext
  rw [hlen, Skeleton.stateNextLoop, hfollow]
  rfl

end Next

end NestLouds
