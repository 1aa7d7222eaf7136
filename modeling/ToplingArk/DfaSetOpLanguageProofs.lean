import ToplingArk.DfaSetOpPairProofs
import ToplingArk.DfaSetOpSubsetProofs

/-! # The languages of the set operations

    Whenever an operation returns, its automaton has the language it should have; it returns
    whenever its tables can hold what is found.  Two things are left to the caller: the
    intersection of no roots is not the set of all words, and the entries of all subsets
    together are counted with the width of a state id. -/

namespace DfaSetOp

open Automata Explore OnflyMinimize SubSetMap List Option Nat

/-- The result is an automaton for the language, and there is one if there is room. -/
structure Produces (P : StateTp) (result : Option Store) (lang : List Nat → Bool) (room : Prop) :
    Prop where
  right : ∀ au, result = some au → ∀ u, (au.dfa P).accepts 0 u = lang u
  returns : room → ∃ au, result = some au

variable {P : StateTp} {A B : Src} {all : Bool} {w : Nat}

/-- Room for the pairs: memory can be reserved, and the table can hold all pairs. -/
def PairRoom (P : StateTp) (O : Kind) (A : Src) (r1 m1 : Nat) (B : Src) (r2 m2 powerLimit : Nat) :
    Prop :=
  m1 + m2 ≤ 2 ^ 32 - 2 ∧ Within (pairSucc O A B) (r1, r2)
    (Enough P (fun l => l.length ≤ 2 ^ 31) (fun l => 2 * l.length) powerLimit
      (keyLen P (pairSucc O A B) id))

/-- Room for the transitions of the pairs, turned around. -/
def MoveRoom (P : StateTp) (O : Kind) (A : Src) (r1 : Nat) (B : Src) (r2 : Nat) : Prop :=
  Within (pairSucc O A B) (r1, r2)
    (fun l => (l.flatMap (pairSucc O A B)).length < 2 ^ (linkTp P).bits)

/-- Room for all subsets that are found. -/
def SubsetRoom (P : StateTp) (all : Bool) (A : Src) (w : Nat) (roots : List Nat)
    (powerLimit : Nat) : Prop :=
  Within (subsetSucc all A w) roots
    (Enough P (fun _ => True) (fun l => l.flatten.length) powerLimit
      (keyLen P (subsetSucc all A w) sortMoves))

/-- The entries of all subsets are fewer than an id can count. -/
def FewEntries (all : Bool) (A : Src) (w : Nat) (roots : List Nat) : Prop :=
  Within (subsetSucc all A w) roots (fun l => l.flatten.length < 2 ^ w)

variable {O : Kind} {r1 r2 : Nat} {roots : List Nat}

section

variable (hO : O.Lawful) (h1 : r1 < A.states) (h2 : r2 < B.states)

include hO h1 h2

/-- The pair of the roots accepts as the operation says. -/
theorem roots_accept (u : List Nat) :
    (keyDfa (pairSucc O A B) (pairFinal O A B)).accepts (r1, r2) u =
      O.final (A.dfa.accepts r1 u) (B.dfa.accepts r2 u) := by
  rw [pair_accepts hO, accOf_state A _ h1, accOf_state B _ h2]

/-- The product automaton has the language of the operation. -/
theorem product_produces (hs1 : A.sigma ≤ P.sigma) (hs2 : B.sigma ≤ P.sigma)
    (m1 m2 powerLimit : Nat) :
    Produces P (product P O A r1 m1 B r2 m2 powerLimit)
      (fun u => O.final (A.dfa.accepts r1 u) (B.dfa.accepts r2 u))
      (PairRoom P O A r1 m1 B r2 m2 powerLimit) := by
  rcases product_spec O h1 h2 hs1 hs2 m1 m2 powerLimit with ⟨s, keys, hrun, h⟩ | ⟨hrun, hfull⟩
  · refine { right := fun au hau u => ?_, returns := fun _ => ⟨s.2, hrun⟩ }
    obtain rfl := mem_unique hrun hau
    rw [h.accepts (pairs_ordered O hs1 hs2) h.first]
    exact roots_accept hO h1 h2 u
  · refine { right := fun au hau => ?_, returns := fun hroom => absurd hroom hfull }
    rw [hrun] at hau
    cases hau

/-- So it has without its dead states. -/
theorem trimmed_produces (hs1 : A.sigma ≤ P.sigma) (hs2 : B.sigma ≤ P.sigma)
    (m1 m2 powerLimit : Nat) :
    Produces P ((product P O A r1 m1 B r2 m2 powerLimit).bind (DeadStates.removeDeadStates P))
      (fun u => O.final (A.dfa.accepts r1 u) (B.dfa.accepts r2 u))
      (PairRoom P O A r1 m1 B r2 m2 powerLimit ∧ MoveRoom P O A r1 B r2) := by
  rcases product_spec O h1 h2 hs1 hs2 m1 m2 powerLimit with ⟨s, keys, hrun, h⟩ | ⟨hrun, hfull⟩
  · rw [hrun, bind_some]
    rcases h.removeDeadStates (pairs_ordered O hs1 hs2) with ⟨au', htrim, hacc⟩ | ⟨htrim, hmany⟩
    · refine { right := fun au hau u => ?_, returns := fun _ => ⟨au', htrim⟩ }
      obtain rfl := mem_unique htrim hau
      rw [hacc]
      exact roots_accept hO h1 h2 u
    · refine { right := fun au hau => ?_, returns := fun ⟨hpairs, hmoves⟩ => ?_ }
      rotate_left
      · exact absurd ⟨hmoves, fun l hnodup hl => (hpairs.2 l hnodup hl).2.2.2⟩ hmany
      rw [htrim] at hau
      cases hau
  · rw [hrun]
    exact { right := fun au hau => (nomatch hau), returns := fun hroom => absurd hroom.1 hfull }

end

/-- The powerset construction has the language of its roots. -/
theorem powerset_produces (h0 : 0 < w) (h64 : w ≤ 64) (hw : A.states ≤ 2 ^ w)
    (hs : A.sigma ≤ P.sigma) (hfew : FewEntries all A w roots) (hint powerLimit : Nat)
    {lang : List Nat → Bool}
    (hlang : (keyDfa (subsetSucc all A w) (subsetFinal all A)).accepts roots = lang) :
    Produces P (powerset P all A w roots hint powerLimit) lang
      (SubsetRoom P all A w roots powerLimit) := by
  rcases powerset_spec all h0 h64 hw hs hfew hint powerLimit with ⟨s, keys, hrun, h⟩ | ⟨hrun, hfull⟩
  · refine { right := fun au hau u => ?_, returns := fun _ => ⟨s.2, hrun⟩ }
    obtain rfl := mem_unique hrun hau
    rw [h.accepts (subsets_ordered all hw hs) h.first, hlang]
  · refine { right := fun au hau => ?_, returns := fun hroom => absurd hroom hfull }
    rw [hrun] at hau
    cases hau

/-- **THE SET OPERATIONS** have the languages of their names, for roots of two automata and for
    lists of roots of one, if the entries of the subsets can be counted and an intersection
    has a root at all. -/
theorem set_operations (hsA : A.sigma ≤ P.sigma) (hsB : B.sigma ≤ P.sigma) (powerLimit : Nat) :
    (∀ r1 m1 r2 m2, r1 < A.states → r2 < B.states →
      Produces P (dfaUnion P A r1 m1 B r2 m2 powerLimit)
        (fun u => A.dfa.accepts r1 u || B.dfa.accepts r2 u)
        (PairRoom P union A r1 m1 B r2 m2 powerLimit) ∧
      Produces P (dfaIntersection P A r1 m1 B r2 m2 powerLimit)
        (fun u => A.dfa.accepts r1 u && B.dfa.accepts r2 u)
        (PairRoom P intersection A r1 m1 B r2 m2 powerLimit ∧
          MoveRoom P intersection A r1 B r2) ∧
      Produces P (dfaDifference P A r1 m1 B r2 m2 powerLimit)
        (fun u => A.dfa.accepts r1 u && !B.dfa.accepts r2 u)
        (PairRoom P difference A r1 m1 B r2 m2 powerLimit ∧ MoveRoom P difference A r1 B r2)) ∧
    ∀ w roots, 0 < w → w ≤ 64 → A.states ≤ 2 ^ w →
      (FewEntries false A w roots → Produces P (dfaUnionN P A w roots powerLimit)
        (fun u => roots.any (fun r => A.dfa.accepts r u))
        (SubsetRoom P false A w roots powerLimit)) ∧
      (FewEntries true A w roots → roots ≠ [] → Produces P (dfaIntersectionN P A w roots powerLimit)
        (fun u => roots.all (fun r => A.dfa.accepts r u))
        (SubsetRoom P true A w roots powerLimit)) := by
  refine ⟨fun r1 m1 r2 m2 h1 h2 => ⟨?_, ?_, ?_⟩, fun w roots h0 h64 hw => ⟨fun hfew => ?_,
    fun hfew hroots => ?_⟩⟩
  · exact product_produces union_lawful h1 h2 hsA hsB m1 m2 powerLimit
  · exact trimmed_produces intersection_lawful h1 h2 hsA hsB m1 m2 powerLimit
  · exact trimmed_produces difference_lawful h1 h2 hsA hsB m1 m2 powerLimit
  · exact powerset_produces h0 h64 hw hsA hfew _ powerLimit (funext (subset_accepts_any hw roots))
  · exact powerset_produces h0 h64 hw hsA hfew _ powerLimit (funext (subset_accepts_all hw hroots))

/-! ## Small sources -/

/-- Two states and one word of one letter. -/
def oneLetter : Src :=
  .ofRows [[(97, 1)], []] (fun s => s == 1) (by decide) (by decide)

theorem length_flatMap_le {K V : Type} {f : K → List V} {l : List K} {k : Nat}
    (h : ∀ a ∈ l, (f a).length ≤ k) : (l.flatMap f).length ≤ l.length * k := by
  induction l with
  | nil => exact zero_le _
  | cons a l ih =>
    obtain ⟨hhead, htail⟩ := forall_mem_cons.mp h
    rw [flatMap_cons, length_append, length_cons, succ_mul, add_comm]
    exact Nat.add_le_add (ih htail) hhead

/-- Bounds the entries of all subsets that can be found. -/
theorem entries_within (hw : A.states ≤ 2 ^ w) (roots : List Nat) :
    Within (subsetSucc all A w) roots (fun l => l.flatten.length ≤
      (2 ^ A.states + 1) * max roots.length A.states) := by
  intro l hnodup hl
  have hle : (l.flatMap id).length ≤ l.length * max roots.length A.states := by
    refine length_flatMap_le (fun S hS => ?_)
    rcases reach_subset hw (hl S hS) with rfl | ⟨-, hsub⟩
    · exact le_max_left _ _
    · have hle := hsub.length_le
      rw [length_range] at hle
      exact hle.trans (le_max_right _ _)
  rw [flatMap_id] at hle
  exact hle.trans (mul_le_mul_right _ (subsets_within hw all roots l hnodup hl))

/-- Bounds the transitions of all pairs that can be found. -/
theorem moves_within (O : Kind) (h1 : r1 < A.states) (h2 : r2 < B.states) (hs1 : A.sigma ≤ P.sigma)
    (hs2 : B.sigma ≤ P.sigma) :
    Within (pairSucc O A B) (r1, r2) (fun l => (l.flatMap (pairSucc O A B)).length ≤
      (A.states + 1) * (B.states + 1) * P.sigma) := by
  have hordered : Ordered P (pairSucc O A B) id := pairs_ordered O hs1 hs2
  intro l hnodup hl
  refine le_trans (length_flatMap_le (fun key _ => ?_))
    (mul_le_mul_right _ (pairs_within O h1 h2 l hnodup hl))
  -- distinct letters below the size of the alphabet
  have hsub : (pairSucc O A B key).map Prod.fst ⊆ range P.sigma := by
    intro c hc
    obtain ⟨m, hm, rfl⟩ := mem_map.mp hc
    exact mem_range.mpr (hordered.letters key m hm)
  have hle := ((hordered.distinct key).subperm hsub).length_le
  rw [length_map, length_range] at hle
  exact hle

/-- No block is longer than one for all letters. -/
theorem bytes_within {K : Type} [DecidableEq K] {succ : K → List (Nat × K)}
    {finish : List (Nat × Nat) → List (Nat × Nat)} (hO : Ordered .state32 succ finish)
    (l : List K) : (l.map (keyLen .state32 succ finish)).sum ≤ l.length * 1056 := by
  have hfull : StateTp.blockLen .state32 ((range 256).map (fun c => (c, 0))) = 1056 := by
    decide +kernel
  induction l with
  | nil => exact Nat.zero_le _
  | cons k l ih =>
    have hasc := pairwise_map.mpr (hO.row_ascending [] k)
    have hle : keyLen .state32 succ finish k ≤ 1056 := by
      rw [← hfull]
      refine blockLen_le (pairwise_map.mpr pairwise_lt_range) ?_
      rw [List.map_map, show Prod.fst ∘ (fun c : Nat => (c, 0)) = id from rfl, List.map_id]
      refine sublist_of_subperm_of_pairwise (hasc.nodup.subperm (fun c hc => ?_)) hasc
        pairwise_lt_range
      obtain ⟨m, hm, rfl⟩ := mem_map.mp hc
      exact mem_range.mpr (hO.row_letters_lt [] k m hm)
    rw [map_cons, sum_cons, length_cons]
    omega

/-- Room for the pairs of two small automata. -/
theorem oneLetter_pairRoom (O : Kind) (h1 : r1 < 2) (h2 : r2 < 2) :
    PairRoom .state32 O oneLetter r1 2 oneLetter r2 2 1000 := by
  refine ⟨by decide, fun l hnodup hl => ?_⟩
  have hle : l.length ≤ 9 := pairs_within (A := oneLetter) (B := oneLetter) O h1 h2 l hnodup hl
  have hmax : 9 < StateTp.state32.maxState := by decide
  have hbytes := bytes_within
    (pairs_ordered (A := oneLetter) (B := oneLetter) O (by decide) (by decide)) l
  have hpos : 9 * 1056 ≤ StateTp.state32.maxPos := by decide
  refine ⟨by omega, by omega, ?_, by omega⟩
  show 2 * l.length ≤ 1000
  omega

/-- The small example has room for its transitions. -/
theorem oneLetter_moveRoom (O : Kind) (h1 : r1 < 2) (h2 : r2 < 2) :
    MoveRoom .state32 O oneLetter r1 oneLetter r2 := by
  intro l hnodup hl
  have hle := moves_within (P := .state32) (A := oneLetter) (B := oneLetter) O h1 h2 (by decide)
    (by decide) l hnodup hl
  exact hle.trans_lt (by decide)

theorem oneLetter_entries (all : Bool) :
    Within (subsetSucc all oneLetter 32) [0, 1] (fun l => l.flatten.length ≤ 10) :=
  entries_within (A := oneLetter) (by decide) [0, 1]

/-- The small example has room for its subsets. -/
theorem oneLetter_subsetRoom (all : Bool) : SubsetRoom .state32 all oneLetter 32 [0, 1] 1000 := by
  intro l hnodup hl
  have hle : l.flatten.length ≤ 10 := oneLetter_entries all l hnodup hl
  have hfew : l.length ≤ 5 :=
    subsets_within (A := oneLetter) (by decide) all [0, 1] l hnodup hl
  have hmax : 9 < StateTp.state32.maxState := by decide
  have hbytes := bytes_within
    (subsets_ordered (A := oneLetter) (w := 32) all (by decide) (by decide)) l
  have hpos : 9 * 1056 ≤ StateTp.state32.maxPos := by decide
  exact ⟨trivial, by omega, hle.trans (show 10 ≤ 1000 by decide), by omega⟩

/-- All five operations on the automaton of one letter. -/
theorem set_operations_one_letter :
    (∃ au, dfaUnion .state32 oneLetter 0 2 oneLetter 1 2 1000 = some au ∧
      (au.dfa .state32).accepts 0 [97] = true ∧ (au.dfa .state32).accepts 0 [] = true) ∧
    (∃ au, dfaIntersection .state32 oneLetter 0 2 oneLetter 0 2 1000 = some au ∧
      (au.dfa .state32).accepts 0 [97] = true) ∧
    (∃ au, dfaDifference .state32 oneLetter 0 2 oneLetter 1 2 1000 = some au ∧
      (au.dfa .state32).accepts 0 [97] = true) ∧
    (∃ au, dfaUnionN .state32 oneLetter 32 [0, 1] 1000 = some au ∧
      (au.dfa .state32).accepts 0 [97] = true ∧ (au.dfa .state32).accepts 0 [] = true) ∧
    ∃ au, dfaIntersectionN .state32 oneLetter 32 [0, 1] 1000 = some au ∧
      (au.dfa .state32).accepts 0 [97] = false := by
  obtain ⟨hpair, hlist⟩ := set_operations (P := .state32) (A := oneLetter) (B := oneLetter)
    (by decide) (by decide) 1000
  have hfew : ∀ all, FewEntries all oneLetter 32 [0, 1] := fun all l hnodup hl =>
    lt_of_le_of_lt (oneLetter_entries all l hnodup hl) (by decide)
  obtain ⟨hunion, -, hdiff⟩ := hpair 0 2 1 2 (by decide) (by decide)
  obtain ⟨-, hinter, -⟩ := hpair 0 2 0 2 (by decide) (by decide)
  obtain ⟨hunionN, hinterN⟩ := hlist 32 [0, 1] (by decide) (by decide) (by decide)
  refine ⟨?_, ?_, ?_, ?_, ?_⟩
  · obtain ⟨au, hau⟩ := hunion.returns (oneLetter_pairRoom _ (by decide) (by decide))
    exact ⟨au, hau, hunion.right au hau [97], hunion.right au hau []⟩
  · obtain ⟨au, hau⟩ := hinter.returns ⟨oneLetter_pairRoom _ (by decide) (by decide),
      oneLetter_moveRoom _ (by decide) (by decide)⟩
    exact ⟨au, hau, hinter.right au hau [97]⟩
  · obtain ⟨au, hau⟩ := hdiff.returns ⟨oneLetter_pairRoom _ (by decide) (by decide),
      oneLetter_moveRoom _ (by decide) (by decide)⟩
    exact ⟨au, hau, hdiff.right au hau [97]⟩
  · obtain ⟨au, hau⟩ := (hunionN (hfew false)).returns (oneLetter_subsetRoom false)
    exact ⟨au, hau, (hunionN (hfew false)).right au hau [97],
      (hunionN (hfew false)).right au hau []⟩
  · obtain ⟨au, hau⟩ := (hinterN (hfew true) (by decide)).returns (oneLetter_subsetRoom true)
    exact ⟨au, hau, (hinterN (hfew true) (by decide)).right au hau [97]⟩

/-! ## What the caller has to see to -/

/-- One state, which is final, without letters. -/
def emptyWord : Src :=
  .ofRows [[]] (fun _ => true) (by decide) (by decide)

/-- The map for the subsets of one state. -/
def oneStateMap : SubSetHashMap where
  index := [0]
  hlink := [2 ^ 32 - 1]
  data := []
  bucket := replicate 5 (2 ^ 32 - 1)

theorem oneStateMap_new : SubSetHashMap.new 32 1 = some oneStateMap := by decide +kernel

/-- As many roots as an id can count: the end of their subset wraps around to its begin. -/
theorem roots_wrap (hlen : roots.length = 2 ^ 32) :
    ∃ m, oneStateMap.findOrAddSubset 32 roots = some (m, 0) ∧ m.size = 1 ∧
      m.subset 0 = some [] ∧ m.data.length = 2 ^ 32 := by
  have hbucket : oneStateMap.bucket[uintArrayHash roots % oneStateMap.bucket.length]? =
      some (nilLink 32) := by
    show (replicate 5 _)[uintArrayHash roots % 5]? = _
    rw [getElem?_replicate, if_pos (mod_lt _ (by decide))]
    rfl
  have hindex : (oneStateMap.append 32 roots).index = [0, 0] := by
    show [0] ++ [(0 + roots.length) % 2 ^ 32] = _
    rw [hlen]
    rfl
  refine ⟨{ oneStateMap.append 32 roots with
      bucket := oneStateMap.bucket.set (uintArrayHash roots % oneStateMap.bucket.length) 0 },
    ?_, ?_, ?_, hlen⟩
  · unfold SubSetHashMap.findOrAddSubset
    dsimp only
    rw [hbucket]
    rfl
  · rfl
  · unfold SubSetHashMap.subset
    rw [hindex]
    rfl

/-- Their union is an automaton without words. -/
theorem unionN_wraps (hlen : roots.length = 2 ^ 32) :
    dfaUnionN .state32 emptyWord 32 roots (2 ^ 64 - 1) = some (Store.init .state32) := by
  obtain ⟨m, hins, hsize, hsubset, hdata⟩ := roots_wrap hlen
  have hexpand : expand .state32 (subsets 32) (subsetSucc false emptyWord 32)
      (subsetFinal false emptyWord) sortMoves (fun t => t.data.length) (2 ^ 64 - 1)
      (m, Store.init .state32) 0 = some (m, Store.init .state32) := by
    show (m.subset 0).bind _ = _
    rw [hsubset]
    show (if 2 ^ 64 - 1 < m.data.length then none else some (m, Store.init .state32)) = _
    rw [hdata, if_neg (by decide)]
  have hexplore : explore .state32 (subsets 32) (subsetSucc false emptyWord 32)
      (subsetFinal false emptyWord) sortMoves (fun t => t.data.length) (2 ^ 64 - 1) 4 0
      (m, Store.init .state32) = some (m, Store.init .state32) := by
    show (if 0 < m.size then _ else _) = _
    rw [hsize, hexpand]
    show (if 0 + 1 < m.size then _ else _) = _
    rw [hsize]
    rfl
  have hnew : SubSetHashMap.new 32 emptyWord.states = some oneStateMap := oneStateMap_new
  unfold dfaUnionN powerset
  rw [hnew, bind_some, hins]
  show (explore _ _ _ _ _ _ _ 4 0 _).map Prod.snd = _
  rw [hexplore]
  rfl

/-- The intersection of no roots has the empty word only, and a list of `2 ^ 32` roots is taken
    for an empty one. -/
theorem set_operations_limits :
    (∃ au, dfaIntersectionN .state32 emptyWord 32 [] (2 ^ 64 - 1) = some au ∧
      (au.dfa .state32).accepts 0 [97] = false ∧
      ([] : List Nat).all (fun r => emptyWord.dfa.accepts r [97]) = true) ∧
    ∃ roots au, (∀ r ∈ roots, r < emptyWord.states) ∧
      dfaUnionN .state32 emptyWord 32 roots (2 ^ 64 - 1) = some au ∧
      (au.dfa .state32).accepts 0 [] = false ∧
      roots.any (fun r => emptyWord.dfa.accepts r []) = true := by
  constructor
  · refine ⟨((Store.init .state32).setTerm 0 true).getD (Store.init .state32), ?_, ?_, rfl⟩
    · decide +kernel
    · decide +kernel
  · refine ⟨replicate (2 ^ 32) 0, Store.init .state32, fun r hr => ?_,
      unionN_wraps length_replicate, rfl, ?_⟩
    · rw [eq_of_mem_replicate hr]
      exact one_pos
    · rw [List.any_eq_true]
      exact ⟨0, mem_replicate.mpr ⟨by decide, rfl⟩, rfl⟩

end DfaSetOp
