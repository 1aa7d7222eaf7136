import ToplingArk.DfaSetOpProofs

/-! # The loop of the set operations

    Whatever the keys are, the states with numbers below `bfshead` have their transitions, the
    others are new, and all keys that the finished ones lead to have numbers.  At the end the
    automaton accepts what the key of the roots accepts. -/

namespace DfaSetOp

open Automata Explore OnflyMinimize List Option Function

/-- What is done to the transitions orders them by letters that the result has. -/
structure Ordered {K : Type} (P : StateTp) (succ : K → List (Nat × K))
    (finish : List (Nat × Nat) → List (Nat × Nat)) : Prop where
  perm : ∀ l, (finish l).Perm l
  distinct : ∀ k, ((succ k).map Prod.fst).Nodup
  ascending : ∀ l : List (Nat × Nat), (∃ k, l.map Prod.fst = (succ k).map Prod.fst) →
    Ascending (finish l)
  letters : ∀ k, ∀ m ∈ succ k, m.1 < P.sigma

section Run

variable {K : Type} [DecidableEq K] {P : StateTp} {T : Table K} {Good Room : List K → Prop}
  {succ : K → List (Nat × K)} {final : K → Bool} {finish : List (Nat × Nat) → List (Nat × Nat)}
  {k : K} {i : Nat}

theorem row_letters (keys : List K) (edges : List (Nat × K)) :
    (row keys edges).map Prod.fst = edges.map Prod.fst := by
  unfold row
  rw [List.map_map]
  rfl

/-- The length of the block of a key's state. -/
def keyLen (P : StateTp) (succ : K → List (Nat × K)) (finish : List (Nat × Nat) → List (Nat × Nat))
    (k : K) : Nat :=
  P.blockLen (finish (row [] (succ k)))

section

variable (hO : Ordered P succ finish) (keys : List K) (k : K)

include hO

/-- The transitions of a key are stored in order. -/
theorem Ordered.row_ascending : Ascending (finish (row keys (succ k))) :=
  hO.ascending _ ⟨k, row_letters keys (succ k)⟩

/-- The transitions of a key have letters of the alphabet. -/
theorem Ordered.row_letters_lt : ∀ m ∈ finish (row keys (succ k)), m.1 < P.sigma := by
  intro m hm
  obtain ⟨e, he, rfl⟩ := mem_map.mp ((hO.perm _).mem_iff.mp hm)
  exact hO.letters k e he

/-- The length of the block does not depend on the numbers of the keys. -/
theorem Ordered.blockLen_row :
    P.blockLen (finish (row keys (succ k))) = keyLen P succ finish k := by
  refine blockLen_congr (hO.row_ascending [] k) (Perm.eq_of_pairwise' (r := (· < ·)) ?_ ?_ ?_)
  · exact pairwise_map.mpr (hO.row_ascending keys k)
  · exact pairwise_map.mpr (hO.row_ascending [] k)
  · refine ((hO.perm _).map _).trans (Perm.trans ?_ ((hO.perm _).map _).symm)
    rw [row_letters, row_letters]

/-- Ordered transitions lead where the rows do. -/
theorem Ordered.target_row :
    target (finish (row keys (succ k))) = fun c => (row keys (succ k)).lookup c := by
  funext c
  have hperm := hO.perm (row keys (succ k))
  cases hlook : (row keys (succ k)).lookup c with
  | none =>
    refine target_eq_none (fun m hm heq => ?_)
    have hfound := lookup_of_mem (row_letters keys (succ k) ▸ hO.distinct k)
      (hperm.mem_iff.mp hm)
    rw [heq, hlook] at hfound
    cases hfound
  | some t =>
    exact target_of_mem (hO.row_ascending keys k)
      (hperm.mem_iff.mpr (mem_of_lookup hlook))

end

/-- The loop before the expansion of the key with the number `head`. -/
structure Explored (P : StateTp) (H : LawfulTable T Good Room) (succ : K → List (Nat × K))
    (final : K → Bool) (finish : List (Nat × Nat) → List (Nat × Nat)) (root : K) (head : Nat)
    (s : T.Tab × Store) (keys : List K) : Prop where
  holds : H.Holds s.1 keys
  nodup : keys.Nodup
  first : keys[0]? = some root
  reach : ∀ k ∈ keys, Reach succ root k
  ok : StoreOk P s.2
  states : s.2.totalStates = keys.length
  bound : keys.length < P.maxState
  pool : Filled s.2 ((keys.take head).map (keyLen P succ finish)).sum
  headLe : head ≤ keys.length
  fresh : ∀ i, head ≤ i → i < keys.length → s.2.state? i = some State.new
  done : ∀ i k, i < head → keys[i]? = some k →
    s.2.state? i = some (canonical P (final k) (finish (row keys (succ k))))
  closed : ∀ i k, i < head → keys[i]? = some k → ∀ m ∈ succ k, m.2 ∈ keys

variable {H : LawfulTable T Good Room} {root : K} {head : Nat} {s : T.Tab × Store} {keys : List K}

/-- Keys found from reachable keys are reachable. -/
theorem reach_addKeys (hreach : ∀ k ∈ keys, Reach succ root k) (hk : k ∈ keys) :
    ∀ x ∈ addKeys keys (succ k), Reach succ root x := by
  intro x hx
  rcases mem_addKeys.mp hx with hx | ⟨m, hm, rfl⟩
  · exact hreach x hx
  · exact (hreach k hk).tail ⟨m.1, hm⟩

omit [DecidableEq K] in
theorem sum_take_succ (hk : keys[head]? = some k) (len : K → Nat) :
    ((keys.take (head + 1)).map len).sum = ((keys.take head).map len).sum + len k := by
  rw [take_add_one, hk, map_append, sum_append_nat]
  rfl

/-- **THE NEXT KEY** has its state, and the keys found from it have new ones. -/
theorem Explored.step (h : Explored P H succ final finish root head s keys)
    (hk : keys[head]? = some k) {s' : T.Tab × Store} (hholds : H.Holds s'.1 (addKeys keys (succ k)))
    (hbound : (addKeys keys (succ k)).length < P.maxState) (hok : StoreOk P s'.2)
    (htotal : s'.2.totalStates = (addKeys keys (succ k)).length)
    (hfill : Filled s'.2 (((keys.take head).map (keyLen P succ finish)).sum +
      keyLen P succ finish k))
    (hself : s'.2.state? head =
      some (canonical P (final k) (finish (row (addKeys keys (succ k)) (succ k)))))
    (hold : ∀ i, i < keys.length → i ≠ head → s'.2.state? i = s.2.state? i)
    (hnew : ∀ i, keys.length ≤ i → i < (addKeys keys (succ k)).length →
      s'.2.state? i = some State.new) :
    Explored P H succ final finish root (head + 1) s' (addKeys keys (succ k)) := by
  have hlt : head < keys.length := (List.getElem_of_getElem? hk).1
  have hpre : keys <+: addKeys keys (succ k) := prefix_addKeys keys (succ k)
  refine { holds := hholds, nodup := nodup_addKeys h.nodup (succ k),
           reach := reach_addKeys h.reach (mem_of_getElem? hk), ok := hok, first := ?_,
           states := htotal, bound := hbound, pool := ?_,
           headLe := hlt.trans_le hpre.length_le, fresh := fun i hi hin => ?_,
           done := fun i x hi hx => ?_, closed := fun i x hi hx m hm => ?_ }
  · rw [getElem?_mono hpre (Nat.lt_of_le_of_lt (Nat.zero_le _) hlt)]
    exact h.first
  · obtain ⟨more, hmore⟩ := hpre
    rw [← hmore, take_append_of_le_length (Nat.succ_le_of_lt hlt), sum_take_succ hk]
    exact hfill
  · by_cases hin' : i < keys.length
    · rw [hold i hin' (Nat.ne_of_gt hi)]
      exact h.fresh i (Nat.le_of_lt hi) hin'
    · exact hnew i (not_lt.mp hin') hin
  · rcases Nat.lt_succ_iff_lt_or_eq.mp hi with hi | rfl
    · have hin : i < keys.length := hi.trans hlt
      rw [getElem?_mono hpre hin] at hx
      rw [hold i hin hi.ne, row_mono hpre (h.closed i x hi hx)]
      exact h.done i x hi hx
    · rw [getElem?_mono hpre hlt, hk] at hx
      cases hx
      exact hself
  · rcases Nat.lt_succ_iff_lt_or_eq.mp hi with hi | rfl
    · rw [getElem?_mono hpre (hi.trans hlt)] at hx
      exact hpre.subset (h.closed i x hi hx m hm)
    · rw [getElem?_mono hpre hlt, hk] at hx
      cases hx
      exact mem_addKeys.mpr (.inr ⟨m, hm, rfl⟩)

/-- The state of a key gets its transitions, in an automaton with states for all keys, unless its
    block begins behind what can be addressed. -/
theorem grow_spec (hO : Ordered P succ finish) (h : Explored P H succ final finish root head s keys)
    (hk : keys[head]? = some k) (hbound : (addKeys keys (succ k)).length < P.maxState) :
    (∃ dst, (if row (addKeys keys (succ k)) (succ k) = [] then some s.2
        else (s.2.resizeStates P (addKeys keys (succ k)).length).bind (fun dst =>
          dst.addAllMove P head (finish (row (addKeys keys (succ k)) (succ k))))) = some dst ∧
      StoreOk P dst ∧ dst.totalStates = (addKeys keys (succ k)).length ∧
      Filled dst (((keys.take head).map (keyLen P succ finish)).sum + keyLen P succ finish k) ∧
      dst.state? head =
        some (canonical P false (finish (row (addKeys keys (succ k)) (succ k)))) ∧
      (∀ i, i < keys.length → i ≠ head → dst.state? i = s.2.state? i) ∧
      ∀ i, keys.length ≤ i → i < (addKeys keys (succ k)).length →
        dst.state? i = some State.new) ∨
    (if row (addKeys keys (succ k)) (succ k) = [] then some s.2
        else (s.2.resizeStates P (addKeys keys (succ k)).length).bind (fun dst =>
          dst.addAllMove P head (finish (row (addKeys keys (succ k)) (succ k))))) = none ∧
      P.maxPos < ((keys.take head).map (keyLen P succ finish)).sum + keyLen P succ finish k := by
  have hhead : head < keys.length := (List.getElem_of_getElem? hk).1
  have hself : s.2.state? head = some State.new := h.fresh head le_rfl hhead
  by_cases hnil : row (addKeys keys (succ k)) (succ k) = []
  · -- nothing is written: the new state is already that of a key without edges
    have hsucc : succ k = [] := map_eq_nil_iff.mp hnil
    have hsame : addKeys keys (succ k) = keys := by
      rw [hsucc]
      rfl
    have hfin : finish (row (addKeys keys (succ k)) (succ k)) = [] := by
      rw [hnil]
      exact (hO.perm []).eq_nil
    have hzero : keyLen P succ finish k = 0 := by
      rw [← hO.blockLen_row (addKeys keys (succ k)), hfin]
      rfl
    rw [if_pos hnil, hfin, hsame, hzero]
    refine .inl ⟨s.2, rfl, h.ok, h.states, h.pool, hself, fun i _ _ => rfl, fun i hi hlt => ?_⟩
    exact absurd hlt hi.not_gt
  obtain ⟨dst, hres, hok, htotal, hpool, hold, hnew⟩ := resizeStates_grow h.ok
    (h.states.trans_le (prefix_addKeys keys (succ k)).length_le) hbound
  rw [h.states] at hold hnew
  have hself1 : dst.state? head = some State.new := (hold head hhead).trans hself
  -- new states take no bytes of the pool
  have hfilled : Filled dst ((keys.take head).map (keyLen P succ finish)).sum := by
    unfold Filled
    rw [hpool]
    exact h.pool
  rw [if_neg hnil, hres, bind_some]
  have hadd := addAllMove_new hok false hself1
    (hO.row_ascending (addKeys keys (succ k)) k) (hO.row_letters_lt _ k) hfilled
  unfold StateTp.Placeable at hadd
  rw [hO.blockLen_row] at hadd
  rcases hadd with ⟨-, dst', hrun, hok', htotal', hpool', hst⟩ | ⟨hfull, hnone⟩
  · refine .inl ⟨dst', hrun, hok', htotal'.trans htotal, hpool', ?_, fun i hi hne => ?_,
      fun i hi hlt => ?_⟩
    · rw [hst, update_self]
    · rw [hst, update_of_ne hne]
      exact hold i hi
    · rw [hst, update_of_ne (Nat.ne_of_gt (hhead.trans_le hi))]
      exact hnew i hi hlt
  · refine .inr ⟨hnone, ?_⟩
    push Not at hfull
    omega

variable {power : T.Tab → Nat} {cost : List K → Nat} {powerLimit : Nat}

/-- What it takes to hold the keys. -/
def Enough (P : StateTp) (Room : List K → Prop) (cost : List K → Nat) (powerLimit : Nat)
    (len : K → Nat) (keys : List K) : Prop :=
  Room keys ∧ keys.length < P.maxState ∧ cost keys ≤ powerLimit ∧ (keys.map len).sum ≤ P.maxPos

section

variable (hO : Ordered P succ finish) (hgood : Within succ root Good)
  (hpower : ∀ {t keys}, H.Holds t keys → power t = cost keys)

include hO hgood hpower

/-- **ONE KEY** is expanded, unless the keys that are found are too many. -/
theorem expand_spec (h : Explored P H succ final finish root head s keys)
    (hlt : head < keys.length) :
    (∃ s' keys', expand P T succ final finish power powerLimit s head = some s' ∧
        Explored P H succ final finish root (head + 1) s' keys') ∨
      (expand P T succ final finish power powerLimit s head = none ∧
        ¬ Within succ root (Enough P Room cost powerLimit (keyLen P succ finish))) := by
  obtain ⟨k, hk⟩ : ∃ k, keys[head]? = some k := ⟨_, getElem?_eq_getElem hlt⟩
  have hreach := reach_addKeys h.reach (mem_of_getElem? hk)
  have hnodup := nodup_addKeys h.nodup (succ k)
  unfold expand
  rw [H.at_eq h.holds hk, bind_some]
  -- the table can be full, the limit reached, or the states or the pool used up
  rcases H.numberAll_spec h.holds (hgood _ hnodup hreach) with ⟨t', hnum, hholds⟩ | ⟨hnum, hroom⟩
  · rw [hnum, bind_some]
    rw [hpower hholds, H.size_eq hholds]
    split
    next hcost =>
      exact .inr ⟨rfl, fun hw => absurd (hw _ hnodup hreach).2.2.1 hcost.not_ge⟩
    by_cases hbound : (addKeys keys (succ k)).length < P.maxState
    · rcases grow_spec hO h hk hbound with
        ⟨dst, hgrow, hok, htotal, hfill, hself, hold, hnew⟩ | ⟨hgrow, hfull⟩
      rotate_left
      · -- the keys up to this one fill the pool
        refine .inr ⟨by rw [hgrow]; rfl, fun hw => ?_⟩
        have hfit := (hw (keys.take (head + 1)) (h.nodup.sublist (take_sublist _ _))
          (fun x hx => h.reach x (mem_of_mem_take hx))).2.2.2
        rw [sum_take_succ hk] at hfit
        omega
      obtain ⟨dst', hset, hok', htotal', hpool', hst⟩ := setFinal_spec hok (final k) hself
      refine .inl ⟨(t', dst'), addKeys keys (succ k), ?_, h.step hk hholds hbound hok'
        (htotal'.trans htotal) ?_ ?_ (fun i hi hne => ?_) (fun i hi hin => ?_)⟩
      · rw [hgrow, bind_some, hset, map_some]
      · unfold Filled
        rw [hpool']
        exact hfill
      · rw [hst, update_self]
      · rw [hst, update_of_ne hne, hold i hi hne]
      · rw [hst, update_of_ne (Nat.ne_of_gt (hlt.trans_le hi)), hnew i hi hin]
    refine .inr ⟨?_, fun hw => hbound (hw _ hnodup hreach).2.1⟩
    -- a key without transitions would need no new states
    have hrow : row (addKeys keys (succ k)) (succ k) ≠ [] := by
      intro hnil
      rw [map_eq_nil_iff.mp hnil] at hbound
      exact hbound h.bound
    rw [if_neg hrow]
    unfold Store.resizeStates
    rw [if_pos (not_lt.mp hbound)]
    rfl
  · rw [hnum]
    exact .inr ⟨rfl, fun hw => hroom (hw _ hnodup hreach).1⟩

/-- **THE LOOP** ends with all keys, unless they are too many; `bound` rounds are enough. -/
theorem explore_spec {bound : Nat} (hbound : Within succ root (fun l => l.length ≤ bound))
    {fuel : Nat} (h : Explored P H succ final finish root head s keys)
    (hfuel : bound < fuel + head) :
    (∃ s' keys', explore P T succ final finish power powerLimit fuel head s = some s' ∧
        Explored P H succ final finish root keys'.length s' keys') ∨
      (explore P T succ final finish power powerLimit fuel head s = none ∧
        ¬ Within succ root (Enough P Room cost powerLimit (keyLen P succ finish))) := by
  induction fuel generalizing head s keys with
  | zero =>
    have hle := hbound keys h.nodup h.reach
    have hhead := h.headLe
    omega
  | succ fuel ih =>
    rw [explore, H.size_eq h.holds]
    split
    next hlt =>
      rcases expand_spec hO hgood hpower h hlt with
        ⟨s1, keys1, hexp, h1⟩ | ⟨hexp, hfull⟩
      · rw [hexp, Option.bind_some]
        exact ih h1 (by omega)
      · rw [hexp]
        exact .inr ⟨rfl, hfull⟩
    next hlt =>
      have hall : head = keys.length := Nat.le_antisymm h.headLe (not_lt.mp hlt)
      subst hall
      exact .inl ⟨s, keys, rfl, h⟩

end

/-! ## The automaton at the end -/

/-- After the last key every key has its state. -/
theorem Explored.state (h : Explored P H succ final finish root keys.length s keys)
    (hi : keys[i]? = some k) :
    s.2.state? i = some (canonical P (final k) (finish (row keys (succ k)))) :=
  h.done i k (List.getElem_of_getElem? hi).1 hi

/-- After the last key nothing is left to find. -/
theorem Explored.succ_mem (h : Explored P H succ final finish root keys.length s keys) :
    ∀ k ∈ keys, ∀ m ∈ succ k, m.2 ∈ keys := by
  intro k hk
  obtain ⟨i, hi⟩ := mem_iff_getElem?.mp hk
  exact h.closed i k (List.getElem_of_getElem? hi).1 hi

section

variable (hO : Ordered P succ finish) (h : Explored P H succ final finish root keys.length s keys)

include hO h

/-- A state accepts what its key accepts. -/
theorem Explored.accepts (hi : keys[i]? = some k) :
    (s.2.dfa P).accepts i = (keyDfa succ final).accepts k := by
  refine accepts_numbered ?_ ?_ h.succ_mem hi
  · intro j x hj
    rw [dfa_final (h.state hj), canonical_term]
  · intro j x hj
    rw [h.ok.dfa_next (h.state hj), canonical_moves]
    exact hO.target_row keys x

/-- The automaton of all keys is closed. -/
theorem Explored.whole : DeadStates.Closed P s.2 where
  ok := h.ok
  targets := by
    intro i x hx m hm
    have hi : i < keys.length := h.states ▸ state?_lt hx
    have hstate := h.state (getElem?_eq_getElem hi)
    rw [hx] at hstate
    rw [some.inj hstate, canonical_moves] at hm
    obtain ⟨e, he, rfl⟩ := mem_map.mp ((hO.perm _).mem_iff.mp hm)
    rw [h.states]
    exact idxOf_lt_length_iff.mpr (h.succ_mem _ (getElem_mem hi) e he)

/-- Its transitions are those of the keys. -/
theorem Explored.edges_length : (DeadStates.edges s.2).length = (keys.flatMap succ).length := by
  unfold DeadStates.edges
  rw [length_flatMap, length_flatMap, h.states]
  refine congrArg sum (ext_getElem? (fun i => ?_))
  rw [getElem?_map, getElem?_map]
  by_cases hi : i < keys.length
  · have hk := getElem?_eq_getElem hi
    rw [getElem?_range hi, hk, map_some, h.state hk]
    show some ((canonical P _ _).moves.map _).length = _
    rw [canonical_moves, length_map, (hO.perm _).length_eq]
    exact congrArg some (length_map _)
  · rw [getElem?_eq_none (not_lt.mp hi),
      getElem?_eq_none (by rw [length_range]; exact not_lt.mp hi)]
    rfl

/-- Its blocks are those of the keys. -/
theorem Explored.bytes_eq : bytes (DeadStates.stateLen P s.2) s.2.totalStates =
    (keys.map (keyLen P succ finish)).sum := by
  unfold bytes
  rw [h.states]
  refine congrArg sum (ext_getElem? (fun i => ?_))
  rw [getElem?_map, getElem?_map]
  by_cases hi : i < keys.length
  · have hk := getElem?_eq_getElem hi
    rw [getElem?_range hi, hk, map_some, map_some]
    unfold DeadStates.stateLen
    rw [h.state hk]
    show some (P.blockLen (canonical P _ _).moves) = _
    rw [canonical_moves, hO.blockLen_row]
  · rw [getElem?_eq_none (not_lt.mp hi),
      getElem?_eq_none (by rw [length_range]; exact not_lt.mp hi)]
    rfl

/-- **WITHOUT ITS DEAD STATES** the automaton accepts the same. -/
theorem Explored.removeDeadStates :
    (∃ au, DeadStates.removeDeadStates P s.2 = some au ∧
        (au.dfa P).accepts 0 = (keyDfa succ final).accepts root) ∨
      (DeadStates.removeDeadStates P s.2 = none ∧
        ¬ (Within succ root (fun l => (l.flatMap succ).length < 2 ^ (linkTp P).bits) ∧
          Within succ root (fun l => (l.map (keyLen P succ finish)).sum ≤ P.maxPos))) := by
  by_cases hfits : (keys.flatMap succ).length < 2 ^ (linkTp P).bits
  · rcases DeadStates.removeDeadStates_spec (h.whole hO) (h.edges_length hO ▸ hfits) (by
        rintro i hi ⟨w, hw⟩
        rw [h.states] at hi
        rw [h.accepts hO (getElem?_eq_getElem hi)] at hw
        obtain ⟨u, hu⟩ := accepts_of_reach hO.distinct (h.reach _ (getElem_mem hi)) hw
        exact ⟨u, (congrFun (h.accepts hO h.first) u).trans hu⟩) with
      ⟨au, hrun, hacc⟩ | ⟨hrun, hfull⟩
    · exact .inl ⟨au, hrun, hacc.trans (h.accepts hO h.first)⟩
    · refine .inr ⟨hrun, fun hw => hfull ⟨h.states ▸ h.bound, ?_⟩⟩
      rw [h.bytes_eq hO]
      exact hw.2 keys h.nodup h.reach
  · refine .inr ⟨DeadStates.removeDeadStates_none (h.whole hO) ?_, fun hw => ?_⟩
    · rw [h.edges_length hO]
      exact not_lt.mp hfits
    · exact hfits (hw.1 keys h.nodup h.reach)

end

/-- The search begins with the root and a new automaton. -/
theorem Explored.start {t : T.Tab} (h : H.Holds t [root]) :
    Explored P H succ final finish root 0 (t, Store.init P) [root] where
  holds := h
  nodup := nodup_singleton root
  first := rfl
  reach := by
    intro k hk
    rw [mem_singleton.mp hk]
    exact .refl
  ok := init_ok P
  states := rfl
  bound := by
    show 1 < P.maxState
    cases P <;> decide
  pool := ⟨rfl, rfl⟩
  headLe := Nat.zero_le _
  fresh := by
    intro i _ hi
    obtain rfl : i = 0 := Nat.lt_one_iff.mp hi
    rfl
  done := fun i _ hi => absurd hi (Nat.not_lt_zero i)
  closed := fun i _ hi => absurd hi (Nat.not_lt_zero i)

end Run

end DfaSetOp
