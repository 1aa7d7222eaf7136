import ToplingArk.LoudsProofs
import ToplingArk.RankSelectProofs

/-! # The skeleton of a nested LOUDS trie — layers and dictionary ranks

    `NestLoudsTrieTpl` keeps the shape of the trie as level-order bits `m_louds`; the
    terminal bits `is_term` belong to the automaton around it.  `init_for_term` notes for
    every layer its first state and the number of terminal states before it.  With these,
    `state_to_dict_rank` adds up, layer by layer, the terminal states that come before a
    state in depth-first order, and `dict_rank_to_state` searches all layers at once for
    the terminal state with a given number of terminal states before it.

    `index_t` has `indexBits` bits; other numbers are `size_t`.  What is undefined, and a
    failed `TERARK_VERIFY`, is `none`. -/

namespace NestLouds

open BitCount LevelTree RankSelectLine List Option Finset Nat

/-- A rank-select object: the bits that it stores, and what its functions answer. -/
structure RsBits where
  bits : List Bool
  face : RankSelect.Face
  correct : RankSelect.Correct bits face

variable (f : Nat → Bool)

/-- The position of the one with so many ones before it, by going through the bits. -/
def findOne (n k : Nat) : Option Nat :=
  (List.range n).find? (fun p => f p && ones f p == k)

variable {k : Nat}

/-- The search finds the one with number `k`. -/
theorem findOne_spec {f : Nat → Bool} {n : Nat} (h : k < ones f n) :
    ∃ p, findOne f n k = some p ∧ p < n ∧ IsSelect f k p := by
  obtain ⟨q, -, hq, hsel⟩ := exists_isSelect (f := f) (a := 0) (zero_le k) h
  cases hfind : findOne f n k with
  | none =>
    have hnone := find?_eq_none.mp hfind q (List.mem_range.mpr hq)
    exact absurd (by rw [hsel.bit, hsel.before]; simp) hnone
  | some p =>
    have hp := find?_some hfind
    rw [Bool.and_eq_true, beq_iff_eq] at hp
    exact ⟨p, rfl, List.mem_range.mp (mem_of_find?_eq_some hfind), hp.1, hp.2⟩

/-- The object that finds its answers in the bits themselves. -/
def RsBits.ofBits (B : List Bool) : RsBits where
  bits := B
  face :=
    { maxRank0 := B.count false
      maxRank1 := B.count true
      rank0 := fun i => some (ones (negBits (ofList B)) i)
      rank1 := fun i => some (ones (ofList B) i)
      select0 := findOne (negBits (ofList B)) B.length
      select1 := findOne (ofList B) B.length
      fastRank0 := fun i => some (ones (negBits (ofList B)) i)
      fastRank1 := fun i => some (ones (ofList B) i)
      fastSelect0 := none
      fastSelect1 := none }
  correct :=
    { max1 := rfl
      max0 := rfl
      rank1 := fun _ _ => rfl
      rank0 := fun _ _ => rfl
      select1 := fun _ hk => findOne_spec (by rw [ones_ofList]; exact hk)
      select0 := fun _ hk => findOne_spec (by rw [ones_negBits_ofList]; exact hk)
      fastRank1 := fun _ _ => rfl
      fastRank0 := fun _ _ => rfl
      fastSelect1 := fun _ h => nomatch h
      fastSelect0 := fun _ h => nomatch h }

/-- `size_t(-1)`. -/
def nilState : Nat := 2 ^ 64 - 1

/-- `m_louds` and `is_term`.  `m_layer_id_rank` is a vector with 32-bit size and capacity, and
    takes `m_layer_ref` behind its elements; `room` is the number of layers up to which the
    capacity does not wrap. -/
structure Skeleton where
  indexBits : Nat
  louds : RsBits
  isTerm : RsBits
  room : Nat
  indexWidth : indexBits = 32 ∨ indexBits = 64
  roomWidth : room < 2 ^ 32

theorem width64 : 64 = 32 ∨ 64 = 64 := .inr rfl

/-- `layer_ref_t`; `fin` is its `end`. -/
structure LayerRef where
  beg : Nat
  fin : Nat
  mid : Nat
deriving DecidableEq, Repr

/-- What `init_for_term` computes: `m_layer_id_rank`, `m_layer_ref`, `m_max_layer_id` and
    `m_max_layer_size`. -/
structure Layers where
  idRank : List (Nat × Nat)
  ref : List LayerRef
  maxLayerId : Nat
  maxLayerSize : Nat

namespace Skeleton

variable (t : Skeleton)

/-- Conversion to `index_t`. -/
def index (x : Nat) : Nat := x % 2 ^ t.indexBits

/-- Subtraction in `index_t`. -/
def indexSub (a b : Nat) : Nat := if b ≤ a then a - b else a + 2 ^ t.indexBits - b

/-! ## `init_for_term` -/

/-- The loop over the layers: the list of their first states and ranks, and the last id. -/
def layerLoop : Nat → Nat → Nat → Nat → List (Nat × Nat) → Option (List (Nat × Nat) × Nat)
  | 0, _, _, _, _ => none
  | fuel + 1, pos, id, rank, layers =>
    let next := t.indexSub (t.indexSub pos id) 1
    if t.louds.face.maxRank1 ≤ next then some (layers ++ [(id, rank)], next)
    else do
      let bitpos ← t.louds.face.select0 next
      let r ← t.isTerm.face.rank1 next
      layerLoop fuel (t.index (bitpos + 1)) next (t.index r) (layers ++ [(id, rank)])

variable (idRank : List (Nat × Nat))

/-- `layer_ref[i]`: from the first state of the layer to that of the next one. -/
def layerRefs : List LayerRef :=
  let ids := idRank.map (fun e => e.1)
  (ids.zip (ids.tail ++ [t.index t.isTerm.bits.length])).map (fun e => ⟨e.1, e.2, 0⟩)

/-- The loop that looks for the first of the widest intervals, from layer `i` on. -/
def widestFrom : Nat → Nat × Nat → List LayerRef → Nat × Nat
  | _, best, [] => best
  | i, best, r :: rest =>
    let size := t.indexSub r.fin r.beg
    widestFrom (i + 1) (if best.2 < size then (i, size) else best) rest

variable (refs : List LayerRef)

/-- The id and the size of the widest interval. -/
def widest : Nat × Nat := t.widestFrom 0 (0, 0) refs

/-- `init_for_term`; `m_max_layer_id` and `m_max_layer_size` have 32 bits in every trie. -/
def initForTerm : Option Layers := do
  let (idRank, id) ← t.layerLoop t.louds.bits.length 2 0 0 []
  if id = t.louds.face.maxRank1 ∧ idRank.length ≤ t.room then
    let refs := t.layerRefs idRank
    some ⟨idRank, refs, (t.widest refs).1 % 2 ^ 32, (t.widest refs).2 % 2 ^ 32⟩
  else none

/-! ## The ranks -/

/-- `layer[i].mid = m` -/
def setMid (i m : Nat) : List LayerRef :=
  refs.modify i (fun r => { r with mid := t.index m })

/-- The loop over the ancestors: `dict_rank_to_state` also notes them in `layer`. -/
def parentLoop (idRank : List (Nat × Nat)) :
    Nat → Nat → Nat → List LayerRef → Nat → Option (List LayerRef × Nat)
  | 0, _, _, _, _ => none
  | fuel + 1, parent, parentLayer, refs, rank =>
    if parent = 0 then some (refs, rank)
    else do
      let bitpos ← t.louds.face.select1 parent
      let parent' := wsub (wsub bitpos parent) 1
      let parentLayer' := wsub parentLayer 1
      let r ← t.isTerm.face.rank1 (parent' + 1)
      let base ← idRank[parentLayer']?
      parentLoop idRank fuel parent' parentLayer' (t.setMid refs parentLayer' parent')
        (rank + wsub r base.2)

/-- The rest of the layers begin at their first states. -/
def restMids (refs : List LayerRef) (childLayer : Nat) : List LayerRef :=
  refs.mapIdx (fun i r =>
    if childLayer ≤ i then { r with mid := ((idRank[i]?).map (fun e => e.1)).getD r.mid } else r)

/-- The loop over the first descendants, which stops where a layer begins with them. -/
def childLoop (idRank : List (Nat × Nat)) :
    Nat → Nat → Nat → List LayerRef → Nat → Option (List LayerRef × Nat)
  | 0, _, _, refs, rank => some (refs, rank)
  | fuel + 1, child, childLayer, refs, rank => do
    let bitpos ← t.louds.face.select0 child
    let child' := wsub bitpos child
    let refs' := t.setMid refs childLayer child'
    let base ← idRank[childLayer]?
    if child' = base.1 then some (restMids idRank refs' (childLayer + 1), rank)
    else do
      let r ← t.isTerm.face.rank1 child'
      childLoop idRank fuel child' (childLayer + 1) refs' (rank + wsub r base.2)

/-- The two loops for a state of a layer. -/
def rankLoops (state layer : Nat) (refs : List LayerRef) :
    Option (List LayerRef × Nat) := do
  let (refs1, parentRank) ← t.parentLoop idRank (layer + 1) state layer refs 0
  let r ← t.isTerm.face.rank1 state
  let base ← idRank[layer]?
  let (refs2, childRank) ←
    t.childLoop idRank (idRank.length - (layer + 1)) state (layer + 1) refs1 (wsub r base.2)
  some (refs2, parentRank + childRank)

/-- `upper_bound_ex_a(m_layer_id_rank, state, TERARK_FIELD(id)) - 1` -/
def layerOf (state : Nat) : Option Nat :=
  (Search.upperBound (fun i => (idRank[i]?).map (fun e => decide (e.1 ≤ state))) 0
    idRank.length).map (fun i => wsub i 1)

/-- `state_to_dict_rank` -/
def stateToDictRank (layers : Layers) (state : Nat) : Option Nat := do
  let layer ← layerOf layers.idRank state
  let r ← t.rankLoops layers.idRank state layer []
  some r.2

/-! ## `dict_rank_to_state` -/

/-- The first state that is accepted, among the first ones of the intervals that are not
    empty. -/
def scan (accept : Nat → Option Bool) : List LayerRef → Option Nat
  | [] => some nilState
  | r :: rest =>
    if r.beg = r.fin then scan accept rest
    else do
      let found ← accept r.beg
      if found then some r.beg else scan accept rest

/-- The loop for a probe with the right rank: the first terminal state. -/
def scanTerm : Option Nat := scan (fun state => t.isTerm.bits[state]?) refs

/-- The state is terminal and has the rank. -/
def hasRank (layers : Layers) (index state : Nat) : Option Bool := do
  let term ← t.isTerm.bits[state]?
  if term then do
    let rank ← t.stateToDictRank layers state
    some (decide (rank = index))
  else some false

/-- The loop for a probe with another rank: the first terminal state with the right one. -/
def scanRank (layers : Layers) (index : Nat) (refs : List LayerRef) : Option Nat :=
  scan (t.hasRank layers index) refs

/-- The answer is before the probe: every interval ends where the probe cuts its layer. -/
def cutRight (layerId : Nat) : List LayerRef :=
  refs.mapIdx (fun i r => { r with fin := t.index (r.mid + if i < layerId then 1 else 0) })

/-- The answer is not before the probe. -/
def cutLeft (layerId : Nat) : List LayerRef :=
  refs.mapIdx (fun i r => { r with beg := t.indexSub r.mid (if layerId < i then 1 else 0) })

/-- The loop of `dict_rank_to_state`, by its rounds. -/
def dictLoop (layers : Layers) (index : Nat) : Nat → List LayerRef → Nat → Nat → Option Nat
  | 0, _, _, _ => none
  | fuel + 1, refs, layerId, layerSize => do
    let r ← refs[layerId]?
    let state := t.index (r.beg + r.fin) / 2
    let (refs', rank) ← t.rankLoops layers.idRank state layerId (t.setMid refs layerId state)
    let term ← t.isTerm.bits[state]?
    if rank = index ∧ term = true then some state
    else if layerSize = 1 then
      if rank = index then t.scanTerm (refs'.drop (layerId + 1))
      else t.scanRank layers index refs'
    else
      let next := if index < rank then t.cutRight refs' layerId else t.cutLeft refs' layerId
      dictLoop layers index fuel next (t.widest next).1 (t.widest next).2

/-- `dict_rank_to_state`: the intervals shrink, so there are fewer rounds than bits. -/
def dictRankToState (layers : Layers) (index : Nat) : Option Nat :=
  t.dictLoop layers index t.louds.bits.length layers.ref layers.maxLayerId layers.maxLayerSize

/-- The bits are those of the tree, and their number is an `index_t`. -/
structure Codes (t : Skeleton) (T : LTree) : Prop where
  louds : t.louds.bits = Louds.bits T
  term : t.isTerm.bits.length = T.size
  fits : 2 * T.size + 1 < 2 ^ t.indexBits

end Skeleton

/-! ## What the functions of the bits answer -/

section Answers

variable {t : Skeleton} {T : LTree} {x : Nat} {g : Nat → Nat → Nat}

/-- The terminal bits. -/
def Skeleton.termBit (t : Skeleton) : Nat → Bool := ofList t.isTerm.bits

theorem Skeleton.Codes.maxRank1 (h : t.Codes T) : t.louds.face.maxRank1 = T.size := by
  rw [t.louds.correct.max1, h.louds, Louds.count_bits]

variable {fuel l s : Nat}

/-- `select0` leads to the children of a node. -/
theorem Skeleton.Codes.select0 (h : t.Codes T) (hs : s ≤ T.size) :
    t.louds.face.select0 s = some (s + T.first s) := by
  have hlt : s < t.louds.face.maxRank0 := by
    rw [t.louds.correct.max0, h.louds, Louds.count_false_bits]
    omega
  obtain ⟨p, hp, -, hsel⟩ := t.louds.correct.select0 s hlt
  rw [h.louds] at hsel
  rw [hp, hsel.unique (Louds.isSelect_zero hs)]

/-- `select1` leads to the parent of a node. -/
theorem Skeleton.Codes.select1 (h : t.Codes T) (hs : T.At (k + 1) s) :
    t.louds.face.select1 s = some (s + T.parent s + 1) := by
  have hlt : s < t.louds.face.maxRank1 := by
    rw [h.maxRank1]
    exact hs.lt_size
  obtain ⟨p, hp, -, hsel⟩ := t.louds.correct.select1 s hlt
  rw [h.louds] at hsel
  rw [hp, hsel.unique (Louds.isSelect_one (first_parent_le hs.pos) (lt_first_parent_succ hs.lt_size)
    hs.parent.lt_size)]

/-- `rank1` counts the strings before a node. -/
theorem Skeleton.Codes.rank1 (h : t.Codes T) (hx : x ≤ T.size) :
    t.isTerm.face.rank1 x = some (ones t.termBit x) :=
  t.isTerm.correct.rank1 x (by rw [h.term]; exact hx)

theorem Skeleton.Codes.isTerm (h : t.Codes T) (hs : s < T.size) :
    t.isTerm.bits[s]? = some (t.termBit s) := by
  have hlt : s < t.isTerm.bits.length := by
    rw [h.term]
    exact hs
  rw [getElem?_eq_getElem hlt]
  exact congrArg some (ofList_eq (getElem?_eq_getElem hlt)).symm

/-- No position of the trie wraps. -/
theorem Skeleton.Codes.index_eq (h : t.Codes T) (hx : x ≤ 2 * T.size + 1) :
    t.index x = x := mod_eq_of_lt (hx.trans_lt h.fits)

theorem Skeleton.indexSub_eq (t : Skeleton) {a b : Nat} (hba : b ≤ a) : t.indexSub a b = a - b :=
  if_pos hba

/-! ## `init_for_term` -/

/-- The first states of the layers from layer `k` on, and the terminal states before them. -/
def tableFrom (T : LTree) (f : Nat → Bool) (k : Nat) : List (Nat × Nat) :=
  (range' k (T.height - k)).map (fun i => (T.level i, ones f (T.level i)))

/-- The table, one layer at a time. -/
theorem tableFrom_eq (hk : k < T.height) :
    tableFrom T f k = (T.level k, ones f (T.level k)) :: tableFrom T f (k + 1) := by
  unfold tableFrom
  rw [show T.height - k = (T.height - (k + 1)) + 1 by omega, range'_succ, List.map_cons]

/-- The table of all layers. -/
def table (T : LTree) (f : Nat → Bool) : List (Nat × Nat) := tableFrom T f 0

theorem length_table : (table T f).length = T.height := by
  simp [table, tableFrom]

/-- Where a layer begins, and the strings before it. -/
theorem table_get (hk : k < T.height) : (table T f)[k]? = some (T.level k, ones f (T.level k)) := by
  unfold table tableFrom
  rw [getElem?_map, getElem?_range' (by omega)]
  simp

/-- **THE LOOP OF `init_for_term`** goes from one layer to the next. -/
theorem layerLoop_spec (h : t.Codes T) (hk : k < T.height) (hfuel : T.height - k ≤ fuel)
    (layers : List (Nat × Nat)) :
    t.layerLoop fuel (T.level k + T.first (T.level k) + 1) (T.level k) (ones t.termBit (T.level k))
      layers = some (layers ++ tableFrom T t.termBit k, T.size) := by
  induction fuel generalizing k layers with
  | zero => omega
  | succ fuel ih =>
    have hnext : t.indexSub (t.indexSub (T.level k + T.first (T.level k) + 1) (T.level k)) 1 =
        T.level (k + 1) := by
      have hpos : t.indexSub (T.level k + T.first (T.level k) + 1) (T.level k) =
          T.first (T.level k) + 1 := by
        rw [t.indexSub_eq (by omega)]
        omega
      rw [hpos, t.indexSub_eq (by omega), level_succ, Nat.add_sub_cancel]
    rw [Skeleton.layerLoop]
    simp only [hnext, h.maxRank1]
    by_cases hlast : T.height ≤ k + 1
    · -- the last layer
      have hheight : T.height = k + 1 := by omega
      rw [if_pos (level_eq_size hlast).ge, level_eq_size hlast, tableFrom_eq _ hk]
      unfold tableFrom
      rw [hheight, Nat.sub_self]
      rfl
    have hlt := level_lt_size (T := T) (not_le.mp hlast)
    have hle := first_le_size (T := T) hlt.le
    have hones := ones_le t.termBit (T.level (k + 1))
    rw [if_neg hlt.not_ge, h.select0 hlt.le, h.rank1 hlt.le]
    simp only [bind_eq_bind, bind_some]
    rw [h.index_eq (by omega), h.index_eq (by omega),
      ih (not_le.mp hlast) (by omega), tableFrom_eq t.termBit hk, append_assoc]
    rfl

/-- The widest interval is as wide as every other, wider than those before it, and is there. -/
structure Widest (size : LayerRef → Nat) (refs : List LayerRef) (w : Nat × Nat) : Prop where
  le : ∀ (i : Nat) r, refs[i]? = some r → size r ≤ w.2
  lt : ∀ (i : Nat) r, i < w.1 → refs[i]? = some r → size r < w.2
  there : 0 < w.2 → ∃ r, refs[w.1]? = some r ∧ size r = w.2
  zero : w.2 = 0 → w.1 = 0

/-- The widest range is found. -/
theorem widest_spec (refs : List LayerRef) :
    Widest (fun r => t.indexSub r.fin r.beg) refs (t.widest refs) := by
  -- what has been seen is a prefix of the list
  have key : ∀ rest seen best, Widest (fun r => t.indexSub r.fin r.beg) seen best →
      Widest (fun r => t.indexSub r.fin r.beg) (seen ++ rest)
        (t.widestFrom seen.length best rest) := by
    intro rest
    induction rest with
    | nil =>
      intro seen best hbest
      rw [append_nil]
      exact hbest
    | cons r rest ih =>
      intro seen best hbest
      have hlast : (seen ++ [r])[seen.length]? = some r := by simp
      have hget : ∀ (i : Nat) r', (seen ++ [r])[i]? = some r' →
          seen[i]? = some r' ∨ (i = seen.length ∧ r' = r) := by
        intro i r' hi
        rw [getElem?_append, getElem?_singleton] at hi
        split_ifs at hi with hlt heq
        · exact .inl hi
        · exact .inr ⟨by omega, (some.inj hi).symm⟩
      have hold : ∀ i r', seen[i]? = some r' → i < seen.length := fun i r' hi =>
        (List.getElem_of_getElem? hi).1
      have hnext : Widest (fun r => t.indexSub r.fin r.beg) (seen ++ [r])
          (if best.2 < t.indexSub r.fin r.beg then (seen.length, t.indexSub r.fin r.beg)
            else best) := by
        split
        · rename_i hgt
          refine ⟨fun i r' hi => ?_, fun i r' hlt hi => ?_, fun _ => ⟨r, hlast, rfl⟩,
            fun hzero => absurd hgt (by omega)⟩
          · rcases hget i r' hi with hi | ⟨-, rfl⟩
            · exact ((hbest.le i r' hi).trans_lt hgt).le
            · exact le_rfl
          · rcases hget i r' hi with hi | ⟨rfl, -⟩
            · exact (hbest.le i r' hi).trans_lt hgt
            · exact absurd hlt (lt_irrefl _)
        rename_i hle
        have hbound : best.1 ≤ seen.length := by
          rcases Nat.eq_zero_or_pos best.2 with hzero | hpos
          · rw [hbest.zero hzero]
            exact zero_le _
          · obtain ⟨rb, hrb, -⟩ := hbest.there hpos
            exact (hold _ rb hrb).le
        refine ⟨fun i r' hi => ?_, fun i r' hlt hi => ?_, fun hpos => ?_, hbest.zero⟩
        · rcases hget i r' hi with hi | ⟨-, rfl⟩
          · exact hbest.le i r' hi
          · exact not_lt.mp hle
        · rcases hget i r' hi with hi | ⟨rfl, -⟩
          · exact hbest.lt i r' hlt hi
          · exact absurd hlt hbound.not_gt
        · obtain ⟨rb, hrb, hsize⟩ := hbest.there hpos
          refine ⟨rb, ?_, hsize⟩
          rw [getElem?_append_left (hold _ rb hrb)]
          exact hrb
      have hstep := ih (seen ++ [r]) _ hnext
      rw [append_assoc, length_append] at hstep
      exact hstep
  have hnil : Widest (fun r => t.indexSub r.fin r.beg) [] (0, 0) :=
    ⟨fun i r hi => by simp at hi, fun i r hi => absurd hi (not_lt_zero i),
      fun h => absurd h (lt_irrefl 0), fun _ => rfl⟩
  exact key refs [] (0, 0) hnil

/-- The intervals of the layers before any search. -/
def wholeLayers (T : LTree) : List LayerRef :=
  (List.range T.height).map (fun k => ⟨T.level k, T.level (k + 1), 0⟩)

/-- At the start all layers are whole. -/
theorem layerRefs_table (h : t.Codes T) : t.layerRefs (table T t.termBit) = wholeLayers T := by
  have hids : (table T t.termBit).map (fun e => e.1) = (List.range T.height).map T.level := by
    unfold table tableFrom
    rw [List.map_map, ← range_eq_range']
    rfl
  unfold Skeleton.layerRefs wholeLayers
  simp only [hids]
  refine ext_getElem? (fun k => ?_)
  rw [h.term, h.index_eq (by omega)]
  by_cases hk : k < T.height
  · have hfirst : ((List.range T.height).map T.level)[k]? = some (T.level k) := by
      rw [getElem?_map, getElem?_range hk]
      rfl
    have hsecond : (((List.range T.height).map T.level).tail ++ [T.size])[k]? =
        some (T.level (k + 1)) := by
      by_cases hlast : k + 1 < T.height
      · rw [getElem?_append_left (by simp; omega), getElem?_tail, getElem?_map,
          getElem?_range hlast]
        rfl
      · rw [getElem?_append_right (by simp; omega), level_eq_size (not_lt.mp hlast)]
        have hzero : k - (((List.range T.height).map T.level).tail).length = 0 := by simp; omega
        rw [hzero]
        rfl
    have hzip : (((List.range T.height).map T.level).zip
        (((List.range T.height).map T.level).tail ++ [T.size]))[k]? =
        some (T.level k, T.level (k + 1)) := getElem?_zip_eq_some.mpr ⟨hfirst, hsecond⟩
    rw [getElem?_map, hzip, getElem?_map, getElem?_range hk]
    rfl
  · rw [getElem?_eq_none (by simp; omega), getElem?_eq_none (by simp; omega)]

theorem wholeLayers_get (hk : k < T.height) :
    (wholeLayers T)[k]? = some ⟨T.level k, T.level (k + 1), 0⟩ := by
  unfold wholeLayers
  rw [getElem?_map, getElem?_range hk]
  rfl

variable (t T) in
/-- What `init_for_term` leaves for the tree. -/
def layersOf : Layers :=
  ⟨table T t.termBit, wholeLayers T, (t.widest (wholeLayers T)).1 % 2 ^ 32,
    (t.widest (wholeLayers T)).2 % 2 ^ 32⟩

/-- **`init_for_term` FINDS THE LAYERS**, or dies if there are too many of them. -/
theorem initForTerm_spec (h : t.Codes T) :
    t.initForTerm = if T.height ≤ t.room then some (layersOf t T) else none := by
  have hfuel : T.height - 0 ≤ t.louds.bits.length := by
    have := height_le_size (T := T)
    rw [h.louds, Louds.length_bits]
    omega
  have hloop := layerLoop_spec h height_pos hfuel []
  rw [level_zero, first_zero, ones_zero, nil_append] at hloop
  unfold Skeleton.initForTerm
  rw [hloop]
  have hlen : (tableFrom T t.termBit 0).length = T.height := length_table _
  simp only [bind_eq_bind, bind_some, h.maxRank1, true_and, hlen]
  unfold layersOf
  rw [← layerRefs_table h]
  rfl

/-! ## The two loops of a rank -/

/-- Other middles, for every layer from its number and its old middle. -/
def withMids (g : Nat → Nat → Nat) (refs : List LayerRef) : List LayerRef :=
  refs.mapIdx (fun i r => { r with mid := g i r.mid })

theorem withMids_withMids (g g' : Nat → Nat → Nat) (refs : List LayerRef) :
    withMids g (withMids g' refs) = withMids (fun i m => g i (g' i m)) refs := by
  unfold withMids
  rw [mapIdx_mapIdx]
  rfl

theorem withMids_congr {g' : Nat → Nat → Nat} (hg : ∀ i m, g i m = g' i m) (refs : List LayerRef) :
    withMids g refs = withMids g' refs :=
  congrArg (fun k => withMids k refs) (funext (fun i => funext (hg i)))

theorem withMids_id (hg : ∀ i m, g i m = m) (refs : List LayerRef) : withMids g refs = refs := by
  unfold withMids
  refine ext_getElem? (fun i => ?_)
  rw [getElem?_mapIdx]
  cases refs[i]? with
  | none => rfl
  | some r => simp [hg]

/-- One middle is set. -/
theorem setMid_eq (h : t.Codes T) (refs : List LayerRef) (i : Nat) {m : Nat} (hm : m ≤ T.size) :
    t.setMid refs i m = withMids (fun j old => if j = i then m else old) refs := by
  unfold Skeleton.setMid withMids
  rw [h.index_eq (by omega)]
  refine ext_getElem? (fun j => ?_)
  rw [getElem?_modify, getElem?_mapIdx]
  by_cases hij : i = j
  · subst hij
    simp
  · cases refs[j]? with
    | none => rfl
    | some r => simp [hij, Ne.symm hij]

/-- The middles below the found layer are set to its begin. -/
theorem restMids_eq (refs : List LayerRef) (k : Nat) :
    Skeleton.restMids (table T f) refs k =
      withMids (fun i old => if k ≤ i ∧ i < T.height then T.level i else old) refs := by
  unfold Skeleton.restMids withMids
  congr 1
  funext i r
  dsimp only
  by_cases hk : k ≤ i
  · by_cases hi : i < T.height
    · rw [if_pos hk, if_pos ⟨hk, hi⟩, table_get f hi]
      rfl
    · have hnone : (table T f)[i]? = none := getElem?_eq_none (by rw [length_table]; omega)
      rw [if_pos hk, if_neg (fun hh => hi hh.2), hnone]
      rfl
  · rw [if_neg hk, if_neg (fun hh => hk hh.1)]

/-- The terminal states of a layer that come before a node of layer `l`. -/
def share (T : LTree) (f : Nat → Bool) (l s i : Nat) : Nat :=
  ones f (T.cut l s i) - ones f (T.level i)

/-- The rank is the sum over the layers. -/
theorem dfsRank_eq_sum (h : T.At l s) :
    T.dfsRank f l s = ∑ i ∈ range T.height, share T f l s i := by
  unfold LTree.dfsRank LTree.total share
  rw [← sum_tsub_distrib]
  · simp only [cut_root]
  · intro i _
    exact ones_mono f (level_le_cut h i)

/-- **THE ANCESTORS**, and the terminal states up to them. -/
theorem parentLoop_spec (h : t.Codes T) (hs : T.At l s) (hfuel : l < fuel) (refs : List LayerRef)
    (rank : Nat) :
    t.parentLoop (table T t.termBit) fuel s l refs rank =
      some (withMids (fun i old => if i < l then T.up s (l - i) else old) refs,
        rank + ∑ i ∈ range l, share T t.termBit l s i) := by
  induction l generalizing s fuel refs rank with
  | zero =>
    obtain ⟨fuel, rfl⟩ : ∃ n, fuel = n + 1 := ⟨fuel - 1, by omega⟩
    rw [Skeleton.parentLoop, if_pos hs.eq_zero,
      withMids_id (fun i old => if_neg (not_lt_zero i))]
    rfl
  | succ l ih =>
    obtain ⟨fuel, rfl⟩ : ∃ n, fuel = n + 1 := ⟨fuel - 1, by omega⟩
    have hp := hs.parent
    -- the position of a node minus the node is its parent
    have hbit : wsub (wsub (s + T.parent s + 1) s) 1 = T.parent s := by
      have hinner : wsub (s + T.parent s + 1) s = T.parent s + 1 := by
        rw [wsub_eq (by omega)]
        omega
      rw [hinner, wsub_eq (by omega), Nat.add_sub_cancel]
    have hlayer : wsub (l + 1) 1 = l := wsub_eq (by omega)
    have hshare : wsub (ones t.termBit (T.parent s + 1)) (ones t.termBit (T.level l)) =
        share T t.termBit (l + 1) s l := by
      have hle := level_le_cut hs l
      unfold share
      rw [cut_above s (lt_succ_self l), show l + 1 - l = 1 by omega] at *
      exact wsub_eq (ones_mono _ hle)
    rw [Skeleton.parentLoop, if_neg hs.pos.ne', h.select1 hs]
    simp only [bind_eq_bind, bind_some, hbit, hlayer]
    rw [h.rank1 hp.lt_size, table_get _ hp.lt_height]
    simp only [bind_some, hshare]
    rw [ih hp (by omega), setMid_eq h _ _ hp.lt_size.le, withMids_withMids]
    congr 1
    refine congrArg₂ Prod.mk (withMids_congr (fun i old => ?_) refs) ?_
    · -- one more ancestor
      rcases lt_trichotomy i l with hlt | rfl | hgt
      · rw [if_pos hlt, if_pos (by omega), show l + 1 - i = (l - i) + 1 by omega, up_succ]
      · rw [if_neg (lt_irrefl i), if_pos rfl, if_pos (lt_succ_self i), Nat.add_sub_cancel_left]
        rfl
      · rw [if_neg (by omega), if_neg (by omega), if_neg (by omega)]
    -- the ancestors of the parent are those of the node
    have hsum : ∑ i ∈ range l, share T t.termBit l (T.parent s) i =
        ∑ i ∈ range l, share T t.termBit (l + 1) s i := by
      refine sum_congr rfl (fun i hi => ?_)
      have hlt := Finset.mem_range.mp hi
      unfold share
      rw [cut_above _ hlt, cut_above _ (by omega), show l + 1 - i = (l - i) + 1 by omega, up_succ]
    rw [Finset.sum_range_succ]
    omega

/-- **THE FIRST DESCENDANTS**, and the terminal states before them. -/
theorem childLoop_spec (h : t.Codes T) {c : Nat} (hfuel : fuel = T.height - (k + 1))
    (h1 : T.level k ≤ c) (h2 : c ≤ T.size) (refs : List LayerRef) (rank : Nat) :
    t.childLoop (table T t.termBit) fuel c (k + 1) refs rank =
      some (withMids (fun i old => if k < i ∧ i < T.height then T.down c (i - k) else old) refs,
        rank + ∑ j ∈ range fuel,
          (ones t.termBit (T.down c (j + 1)) - ones t.termBit (T.level (k + 1 + j)))) := by
  induction fuel generalizing k c refs rank with
  | zero =>
    have hnone : ∀ i old, (if k < i ∧ i < T.height then T.down c (i - k) else old) = old :=
      fun i old => if_neg (by omega)
    rw [withMids_id hnone]
    rfl
  | succ fuel ih =>
    have hlt : k + 1 < T.height := by omega
    have hle := first_le_size h2
    have hlev : T.level (k + 1) ≤ T.first c := by
      rw [level_succ]
      exact first_mono h1
    have hchild : wsub (c + T.first c) c = T.first c := by
      rw [wsub_eq (by omega)]
      omega
    rw [Skeleton.childLoop, h.select0 h2]
    simp only [bind_eq_bind, bind_some, hchild]
    rw [table_get _ hlt]
    simp only [bind_some]
    rw [setMid_eq h _ _ hle]
    -- the layers behind the next one
    have hmids : ∀ g : Nat → Nat, (∀ i, k + 1 < i → g i = T.down c (i - k)) → ∀ i old,
        (if k + 1 < i ∧ i < T.height then g i else if i = k + 1 then T.first c else old) =
          if k < i ∧ i < T.height then T.down c (i - k) else old := by
      intro g hg i old
      split
      next hi =>
        rw [if_pos ⟨by omega, hi.2⟩, hg i hi.1]
      · split
        · rw [if_pos ⟨by omega, by omega⟩, show i - k = 0 + 1 by omega, down_succ,
            down_zero]
        · rw [if_neg (by omega)]
    by_cases hstop : T.first c = T.level (k + 1)
    · -- the rest of the layers begin with the descendants
      have hdown : ∀ j, T.down c (j + 1) = T.level (k + 1 + j) := by
        intro j
        rw [← down_first, hstop, level_add (k + 1) j]
      rw [if_pos hstop, restMids_eq, withMids_withMids]
      congr 1
      refine congrArg₂ Prod.mk (withMids_congr (hmids _ (fun i hi => ?_)) refs) ?_
      · rw [show i - k = (i - (k + 1)) + 1 by omega, hdown, show k + 1 + (i - (k + 1)) = i by omega]
      · rw [Finset.sum_eq_zero, add_zero]
        intro j _
        rw [hdown, Nat.sub_self]
    rw [if_neg hstop, h.rank1 hle]
    simp only [bind_some]
    rw [ih (by omega) hlev hle, withMids_withMids]
    congr 1
    refine congrArg₂ Prod.mk (withMids_congr (hmids _ (fun i hi => ?_)) refs) ?_
    · rw [down_first, show i - (k + 1) + 1 = i - k by omega]
    rw [Finset.sum_range_succ', wsub_eq (ones_mono _ hlev)]
    have hzero : T.down c (0 + 1) = T.first c := rfl
    simp only [down_first, show ∀ j, k + 1 + 1 + j = k + 1 + (j + 1) by omega, hzero, add_zero]
    omega

/-- Where the search for a node marks a layer: its ancestor, or its first descendant. -/
def mark (T : LTree) (l s i : Nat) : Nat := if i < l then T.up s (l - i) else T.down s (i - l)

/-- The cut counts the ancestor itself. -/
theorem cut_eq_mark (l s i : Nat) : T.cut l s i = mark T l s i + if i < l then 1 else 0 := by
  unfold LTree.cut mark
  split <;> rfl

/-- **THE LOOPS COMPUTE THE PLACE IN DEPTH-FIRST ORDER**, and mark every layer but that of the
    state. -/
theorem rankLoops_spec (h : t.Codes T) (hs : T.At l s) (refs : List LayerRef) :
    t.rankLoops (table T t.termBit) s l refs =
      some (withMids (fun i old => if i ≠ l ∧ i < T.height then mark T l s i else old) refs,
        T.dfsRank t.termBit l s) := by
  have hlt := hs.lt_height
  have hle : ones t.termBit (T.level l) ≤ ones t.termBit s := ones_mono _ hs.1
  unfold Skeleton.rankLoops
  rw [parentLoop_spec h hs (lt_succ_self l)]
  simp only [bind_eq_bind, bind_some]
  rw [h.rank1 hs.lt_size.le, table_get _ hlt, length_table]
  simp only [bind_some]
  rw [childLoop_spec h rfl hs.1 hs.lt_size.le, withMids_withMids]
  simp only [bind_some, wsub_eq hle]
  congr 1
  refine congrArg₂ Prod.mk (withMids_congr (fun i old => ?_) refs) ?_
  · show (if l < i ∧ i < T.height then _ else if i < l then _ else _) = _
    unfold mark
    rcases lt_trichotomy i l with hil | rfl | hil
    · rw [if_neg (by omega), if_pos hil, if_pos ⟨by omega, by omega⟩, if_pos hil]
    · rw [if_neg (by omega), if_neg (by omega), if_neg (by omega)]
    · by_cases hi : i < T.height
      · rw [if_pos ⟨hil, hi⟩, if_pos ⟨by omega, hi⟩, if_neg (by omega)]
      · rw [if_neg (by omega), if_neg (by omega), if_neg (by omega)]
  rw [dfsRank_eq_sum _ hs]
  have hsplit : T.height = l + 1 + (T.height - (l + 1)) := by omega
  conv_rhs => rw [hsplit]
  have hself : share T t.termBit l s l = ones t.termBit s - ones t.termBit (T.level l) := by
    unfold share
    rw [cut_self]
  have hbelow : ∀ j, share T t.termBit l s (l + 1 + j) =
      ones t.termBit (T.down s (j + 1)) - ones t.termBit (T.level (l + 1 + j)) := by
    intro j
    unfold share
    rw [cut_below s (by omega), show l + 1 + j - l = j + 1 by omega]
  rw [sum_range_add, Finset.sum_range_succ, sum_congr rfl (fun j _ => hbelow j)]
  omega

/-- The layer of a node is found. -/
theorem layerOf_spec (hs : T.At l s) : Skeleton.layerOf (table T f) s = some l := by
  have hlt := hs.lt_height
  have hsearch : Search.upperBound
      (fun i => ((table T f)[i]?).map (fun e => decide (e.1 ≤ s))) 0 (table T f).length =
      some (l + 1) := by
    rw [length_table]
    refine Search.upperBound_eq (zero_le _) hlt (fun k _ hk => ?_)
    rw [table_get f hk]
    show some (decide (T.level k ≤ s)) = _
    congr 1
    refine decide_eq_decide.mpr ⟨fun hle => ?_, fun hkl => ?_⟩
    · by_contra hgt
      have := level_mono (T := T) (not_lt.mp hgt)
      have := hs.2
      omega
    · exact (level_mono (le_of_lt_succ hkl)).trans hs.1
  unfold Skeleton.layerOf
  rw [hsearch]
  rfl

/-- **`state_to_dict_rank` IS THE PLACE IN DEPTH-FIRST ORDER.** -/
theorem stateToDictRank_spec (h : t.Codes T) (hs : T.At l s) :
    t.stateToDictRank (layersOf t T) s = some (T.dfsRank t.termBit l s) := by
  show (Skeleton.layerOf (table T t.termBit) s).bind _ = _
  rw [layerOf_spec _ hs]
  show (t.rankLoops (table T t.termBit) s l []).bind _ = _
  rw [rankLoops_spec h hs]
  rfl

end Answers

end NestLouds
