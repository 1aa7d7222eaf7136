import Mathlib.Data.List.Sublists
import ToplingArk.DfaSetOpRunProofs

/-! # Subsets of states

    A subset stands for the words of some of its states, or of all of them.  A letter leads to
    the subset of the states that its states lead to; for the intersection only if all of them
    have the letter.  Apart from the roots, which are taken as they are given, subsets are
    sorted without repetitions, so there are finitely many. -/

namespace DfaSetOp

open Automata Explore OnflyMinimize SubSetMap List Option Nat

/-! ## The sets of a letter -/

/-- A child is appended to the set of its letter. -/
theorem lookup_pushChild (sets : List (Nat × List Nat)) (ch child c : Nat) :
    (pushChild sets ch child).lookup c =
      if ch = c then some ((sets.lookup c).getD [] ++ [child]) else sets.lookup c := by
  induction sets with
  | nil =>
    show lookup c [(ch, [child])] = _
    rw [lookup_cons]
    by_cases heq : ch = c
    · rw [if_pos heq, beq_iff_eq.mpr heq.symm]
      rfl
    · rw [if_neg heq, beq_eq_false_iff_ne.mpr (Ne.symm heq)]
  | cons s sets ih =>
    show lookup c (if s.1 = ch then _ :: sets else s :: pushChild sets ch child) = _
    split
    next hs =>
      rw [lookup_cons, lookup_cons, hs]
      by_cases heq : ch = c
      · rw [if_pos heq, beq_iff_eq.mpr heq.symm]
        rfl
      · rw [if_neg heq, beq_eq_false_iff_ne.mpr (Ne.symm heq)]
    next hs =>
      rw [lookup_cons, lookup_cons, ih]
      by_cases hc : c = s.1
      · have hne : ¬ ch = c := fun heq => hs (hc.symm.trans heq.symm)
        rw [beq_iff_eq.mpr hc]
        exact (if_neg hne).symm
      · rw [beq_eq_false_iff_ne.mpr hc]

/-- A new letter comes last. -/
theorem pushChild_letters (sets : List (Nat × List Nat)) (ch child : Nat) :
    (pushChild sets ch child).map Prod.fst = addKey (sets.map Prod.fst) ch := by
  unfold addKey
  induction sets with
  | nil => rfl
  | cons s sets ih =>
    show map Prod.fst (if s.1 = ch then _ :: sets else s :: pushChild sets ch child) = _
    split
    next hs =>
      rw [if_pos (by rw [← hs]; exact mem_cons_self), map_cons, map_cons,
        hs]
    next hs =>
      rw [map_cons, ih, map_cons]
      split
      next hmem =>
        rw [if_pos (mem_cons_of_mem _ hmem)]
      next hmem =>
        rw [if_neg (not_mem_cons_of_ne_of_not_mem (Ne.symm hs) hmem)]
        rfl

/-- The targets of the transitions with a letter. -/
def childrenOf (w : Nat) (l : List (Nat × Nat)) (c : Nat) : List Nat :=
  (l.filter (fun m => decide (m.1 = c))).map (fun m => m.2 % 2 ^ w)

theorem childrenOf_cons (w : Nat) (m : Nat × Nat) (l : List (Nat × Nat)) (c : Nat) :
    childrenOf w (m :: l) c =
      if m.1 = c then m.2 % 2 ^ w :: childrenOf w l c else childrenOf w l c := by
  unfold childrenOf
  rw [filter_cons]
  by_cases heq : m.1 = c
  · rw [if_pos heq, if_pos (decide_eq_true heq), map_cons]
  · rw [if_neg heq, if_neg (by rw [decide_eq_false heq]; exact Bool.false_ne_true)]

theorem childrenOf_append (w : Nat) (l l' : List (Nat × Nat)) (c : Nat) :
    childrenOf w (l ++ l') c = childrenOf w l c ++ childrenOf w l' c := by
  unfold childrenOf
  rw [filter_append, map_append]

/-- Each letter collects its children. -/
theorem lookup_pushAll (w : Nat) (l : List (Nat × Nat)) (sets : List (Nat × List Nat)) (c : Nat) :
    (l.foldl (fun sets m => pushChild sets m.1 (m.2 % 2 ^ w)) sets).lookup c =
      if childrenOf w l c = [] then sets.lookup c
      else some ((sets.lookup c).getD [] ++ childrenOf w l c) := by
  induction l generalizing sets with
  | nil => rfl
  | cons m l ih =>
    rw [foldl_cons, ih, lookup_pushChild, childrenOf_cons]
    by_cases heq : m.1 = c
    · rw [if_pos heq, if_pos heq, if_neg (cons_ne_nil _ _)]
      split
      next hnil =>
        rw [hnil]
      · rw [getD_some, append_assoc]
        rfl
    · rw [if_neg heq, if_neg heq]

theorem pushAll_nodup (w : Nat) (l : List (Nat × Nat)) {sets : List (Nat × List Nat)}
    (h : (sets.map Prod.fst).Nodup) :
    ((l.foldl (fun sets m => pushChild sets m.1 (m.2 % 2 ^ w)) sets).map Prod.fst).Nodup := by
  induction l generalizing sets with
  | nil => exact h
  | cons m l ih =>
    refine ih ?_
    rw [pushChild_letters]
    exact nodup_addKey h m.1

variable {l : List (Nat × Nat)}

/-- One state has at most one child for a letter. -/
theorem childrenOf_moves {w : Nat} (hl : Ascending l) (hw : ∀ m ∈ l, m.2 < 2 ^ w) (c : Nat) :
    childrenOf w l c = (target l c).toList := by
  induction l with
  | nil => rfl
  | cons m l ih =>
    obtain ⟨hhead, htail⟩ := forall_mem_cons.mp hw
    rw [childrenOf_cons, ih hl.of_cons htail]
    show _ = (if m.1 = c then some m.2 else target l c).toList
    by_cases heq : m.1 = c
    · have hnone : target l c = none := by
        refine target_eq_none (fun x hx hxc => ?_)
        have := (pairwise_cons.mp hl).1 x hx
        omega
      rw [if_pos heq, if_pos heq, hnone, mod_eq_of_lt hhead]
      rfl
    · rw [if_neg heq, if_neg heq]

variable {A : Src} {w c t : Nat} {all : Bool} {P : StateTp}

/-- The states that a letter leads to. -/
def children (A : Src) (S : List Nat) (c : Nat) : List Nat := S.filterMap (fun s => A.dfa.next s c)

/-- A subset has the children of its states. -/
theorem childrenOf_flatMap (hw : A.states ≤ 2 ^ w) (S : List Nat) (c : Nat) :
    childrenOf w (S.flatMap A.moves) c = children A S c := by
  unfold children
  induction S with
  | nil => rfl
  | cons s S ih =>
    rw [flatMap_cons, childrenOf_append, ih, childrenOf_moves (A.ascending s)
      (fun m hm => lt_of_lt_of_le (A.targets s m hm) hw)]
    have hnext : A.dfa.next s c = target (A.moves s) c := rfl
    rw [filterMap_cons, hnext]
    cases target (A.moves s) c with
    | none => rfl
    | some t => rfl

/-- **NEXT_SETS** has the states that a letter leads to, if there are any. -/
theorem lookup_nextSets (hw : A.states ≤ 2 ^ w) (S : List Nat) (c : Nat) :
    (nextSets A w S).lookup c = if children A S c = [] then none else some (children A S c) := by
  unfold nextSets
  rw [lookup_pushAll, childrenOf_flatMap hw]
  rfl

theorem nextSets_distinct (A : Src) (w : Nat) (S : List Nat) :
    ((nextSets A w S).map Prod.fst).Nodup :=
  pushAll_nodup w _ nodup_nil

/-! ## The transitions of a subset -/

/-- Whether a letter with these states is a letter of the subset. -/
def Leads (all : Bool) (S ts : List Nat) : Bool := !(all && ts.length != S.length)

/-- The successors are the sorted sets that lead on. -/
theorem subsetSucc_eq (all : Bool) (A : Src) (w : Nat) (S : List Nat) :
    subsetSucc all A w S =
      ((nextSets A w S).filter (fun s => Leads all S s.2)).map (fun s => (s.1, sortUniq s.2)) := by
  unfold subsetSucc Leads
  rw [← filterMap_eq_map, filterMap_filter]
  refine filterMap_congr (fun s _ => ?_)
  cases all && s.2.length != S.length with
  | true => rfl
  | false => rfl

/-- A subset has one transition for a letter. -/
theorem subsetSucc_distinct (all : Bool) (A : Src) (w : Nat) (S : List Nat) :
    ((subsetSucc all A w S).map Prod.fst).Nodup := by
  rw [subsetSucc_eq, List.map_map]
  exact ((filter_sublist).map Prod.fst).nodup (nextSets_distinct A w S)

variable {S roots : List Nat}

/-- When a subset leads to another one. -/
theorem mem_subsetSucc (hw : A.states ≤ 2 ^ w) {m : Nat × List Nat} :
    m ∈ subsetSucc all A w S ↔ children A S m.1 ≠ [] ∧ Leads all S (children A S m.1) = true ∧
      m.2 = sortUniq (children A S m.1) := by
  rw [subsetSucc_eq, List.mem_map]
  constructor
  · rintro ⟨s, hs, rfl⟩
    obtain ⟨hmem, hleads⟩ := mem_filter.mp hs
    have hlook := lookup_of_mem (nextSets_distinct A w S) hmem
    rw [lookup_nextSets hw] at hlook
    split at hlook
    · cases hlook
    · rename_i hne
      rw [← some.inj hlook] at hleads ⊢
      exact ⟨hne, hleads, rfl⟩
  · rintro ⟨hne, hleads, hm⟩
    have hlook := lookup_nextSets hw S m.1
    rw [if_neg hne] at hlook
    exact ⟨_, mem_filter.mpr ⟨mem_of_lookup hlook, hleads⟩, Prod.ext rfl hm.symm⟩

/-- Where a subset leads by a letter. -/
theorem lookup_subsetSucc (hw : A.states ≤ 2 ^ w) (S : List Nat) (c : Nat) :
    (subsetSucc all A w S).lookup c =
      if children A S c ≠ [] ∧ Leads all S (children A S c) = true then
        some (sortUniq (children A S c)) else none := by
  split
  · rename_i h
    exact lookup_of_mem (subsetSucc_distinct all A w S)
      ((mem_subsetSucc hw (m := (c, _))).mpr ⟨h.1, h.2, rfl⟩)
  · rename_i h
    cases hlook : (subsetSucc all A w S).lookup c with
    | none => rfl
    | some ss =>
      obtain ⟨hne, hleads, -⟩ := (mem_subsetSucc hw).mp (mem_of_lookup hlook)
      exact absurd ⟨hne, hleads⟩ h

theorem mem_sortUniq {l : List Nat} {x : Nat} : x ∈ sortUniq l ↔ x ∈ l := by
  unfold sortUniq
  rw [mem_dedup, mem_insertionSort]

theorem mem_children : t ∈ children A S c ↔ ∃ s ∈ S, A.dfa.next s c = some t :=
  mem_filterMap

/-- Children are states. -/
theorem children_lt (h : t ∈ children A S c) : t < A.states := by
  obtain ⟨s, -, hs⟩ := mem_children.mp h
  exact A.targets s _ (mem_of_target hs)

/-! ## The words of a subset -/

theorem any_sortUniq (l : List Nat) (p : Nat → Bool) : (sortUniq l).any p = l.any p := by
  rw [Bool.eq_iff_iff, List.any_eq_true, List.any_eq_true]
  simp only [mem_sortUniq]

theorem all_sortUniq (l : List Nat) (p : Nat → Bool) : (sortUniq l).all p = l.all p := by
  rw [Bool.eq_iff_iff, List.all_eq_true, List.all_eq_true]
  simp only [mem_sortUniq]

/-- **A SUBSET** of the union has the words of its states. -/
theorem subset_accepts_any (hw : A.states ≤ 2 ^ w) (S : List Nat) (u : List Nat) :
    (keyDfa (subsetSucc false A w) (subsetFinal false A)).accepts S u =
      S.any (fun s => A.dfa.accepts s u) := by
  induction u generalizing S with
  | nil => rfl
  | cons c u ih =>
    have hnext : (keyDfa (subsetSucc false A w) (subsetFinal false A)).next S c =
        (subsetSucc false A w S).lookup c := rfl
    have hany : (children A S c).any (fun s => A.dfa.accepts s u) =
        S.any (fun s => A.dfa.accepts s (c :: u)) := by
      rw [Bool.eq_iff_iff, List.any_eq_true, List.any_eq_true]
      constructor
      · rintro ⟨t, ht, hacc⟩
        obtain ⟨s, hs, hst⟩ := mem_children.mp ht
        exact ⟨s, hs, (Dfa.accepts_cons_some hst u).trans hacc⟩
      rintro ⟨s, hs, hacc⟩
      cases hst : A.dfa.next s c with
      | none =>
        rw [Dfa.accepts_cons_none hst] at hacc
        cases hacc
      | some t =>
        rw [Dfa.accepts_cons_some hst] at hacc
        exact ⟨t, mem_children.mpr ⟨s, hs, hst⟩, hacc⟩
    rw [← hany]
    rw [lookup_subsetSucc hw] at hnext
    by_cases hne : children A S c = []
    · rw [if_neg (fun h => h.1 hne)] at hnext
      rw [Dfa.accepts_cons_none hnext, hne]
      rfl
    · rw [if_pos ⟨hne, rfl⟩] at hnext
      rw [Dfa.accepts_cons_some hnext, ih, any_sortUniq]

/-- **A SUBSET** of the intersection has the words that all its states have. -/
theorem subset_accepts_all (hw : A.states ≤ 2 ^ w) (hS : S ≠ []) (u : List Nat) :
    (keyDfa (subsetSucc true A w) (subsetFinal true A)).accepts S u =
      S.all (fun s => A.dfa.accepts s u) := by
  induction u generalizing S with
  | nil => rfl
  | cons c u ih =>
    have hnext : (keyDfa (subsetSucc true A w) (subsetFinal true A)).next S c =
        (subsetSucc true A w S).lookup c := rfl
    rw [lookup_subsetSucc hw] at hnext
    by_cases hlen : (children A S c).length = S.length
    · -- every state has the letter
      have hall : ∀ s ∈ S, (A.dfa.next s c).isSome = true :=
        filterMap_length_eq_length.mp hlen
      have hne : children A S c ≠ [] := by
        intro hnil
        rw [hnil] at hlen
        exact hS (length_eq_zero_iff.mp hlen.symm)
      have hne' : sortUniq (children A S c) ≠ [] := by
        obtain ⟨t, ht⟩ := exists_mem_of_ne_nil _ hne
        exact ne_nil_of_mem (mem_sortUniq.mpr ht)
      have hleads : Leads true S (children A S c) = true := by
        unfold Leads
        rw [hlen]
        simp
      rw [if_pos ⟨hne, hleads⟩] at hnext
      rw [Dfa.accepts_cons_some hnext, ih hne', all_sortUniq, Bool.eq_iff_iff, List.all_eq_true,
        List.all_eq_true]
      constructor
      · intro hacc s hs
        obtain ⟨t, ht⟩ := isSome_iff_exists.mp (hall s hs)
        rw [Dfa.accepts_cons_some ht]
        exact hacc t (mem_children.mpr ⟨s, hs, ht⟩)
      · intro hacc t ht
        obtain ⟨s, hs, hst⟩ := mem_children.mp ht
        rw [← Dfa.accepts_cons_some hst]
        exact hacc s hs
    -- a state without the letter
    have hleads : ¬ Leads true S (children A S c) = true := by
      unfold Leads
      simp [hlen]
    rw [if_neg (fun h => hleads h.2)] at hnext
    rw [Dfa.accepts_cons_none hnext, eq_comm, List.all_eq_false]
    have hsome : ¬ ∀ s ∈ S, (A.dfa.next s c).isSome = true :=
      fun h => hlen (filterMap_length_eq_length.mpr h)
    obtain ⟨s, hs⟩ := not_forall.mp hsome
    obtain ⟨hmem, hnone⟩ := Classical.not_imp.mp hs
    refine ⟨s, hmem, ?_⟩
    rw [Dfa.accepts_cons_none (not_isSome_iff_eq_none.mp hnone)]
    exact Bool.false_ne_true

/-! ## Finitely many subsets -/

/-- A sorted set of states is a part of all states. -/
theorem sortUniq_sublist {l : List Nat} {n : Nat} (h : ∀ x ∈ l, x < n) :
    (sortUniq l).Sublist (range n) := by
  have hsub : sortUniq l ⊆ range n :=
    fun x hx => mem_range.mpr (h x (mem_sortUniq.mp hx))
  have hsorted : (sortUniq l).Pairwise (· ≤ ·) :=
    (pairwise_insertionSort (· ≤ ·) l).sublist (dedup_sublist _)
  have hrange : (range n).Pairwise (· ≤ ·) := pairwise_lt_range.imp le_of_lt
  exact sublist_of_subperm_of_pairwise ((nodup_dedup _).subperm hsub) hsorted hrange

/-- Every subset that is found, apart from the roots, is an ordered set of states. -/
theorem reach_subset (hw : A.states ≤ 2 ^ w) (h : Reach (subsetSucc all A w) roots S) :
    S = roots ∨ (S ≠ [] ∧ S.Sublist (range A.states)) := by
  induction h with
  | refl => exact .inl rfl
  | tail _ hstep _ =>
    obtain ⟨c, hc⟩ := hstep
    obtain ⟨hne, -, heq⟩ := (mem_subsetSucc hw).mp hc
    dsimp only at heq
    refine .inr ?_
    rw [heq]
    obtain ⟨t, ht⟩ := exists_mem_of_ne_nil _ hne
    exact ⟨ne_nil_of_mem (mem_sortUniq.mpr ht), sortUniq_sublist (fun x hx => children_lt hx)⟩

/-- There are no more subsets than sets of states, and the roots. -/
theorem subsets_within (hw : A.states ≤ 2 ^ w) (all : Bool) (roots : List Nat) :
    Within (subsetSucc all A w) roots (fun l => l.length ≤ 2 ^ A.states + 1) := by
  intro l hnodup hl
  have hsub : l ⊆ roots :: (range A.states).sublists := by
    intro S hS
    rcases reach_subset hw (hl S hS) with rfl | ⟨-, hsub⟩
    · exact mem_cons_self
    · exact mem_cons_of_mem _ (mem_sublists.mpr hsub)
  have hle := (hnodup.subperm hsub).length_le
  rw [length_cons, length_sublists, length_range] at hle
  exact hle

theorem length_le_flatten {l : List (List Nat)} (h : ∀ S ∈ l, S ≠ []) :
    l.length ≤ l.flatten.length := by
  induction l with
  | nil => exact le_rfl
  | cons S l ih =>
    obtain ⟨hhead, htail⟩ := forall_mem_cons.mp h
    have hpos := length_pos_iff.mpr hhead
    have := ih htail
    rw [flatten_cons, length_append, length_cons]
    omega

/-- With few entries there are few subsets. -/
theorem fits_within (h0 : 0 < w) (hw : A.states ≤ 2 ^ w)
    (h : Within (subsetSucc all A w) roots (fun l => l.flatten.length < 2 ^ w)) :
    Within (subsetSucc all A w) roots (Fits w) := by
  intro l hnodup hl
  refine ⟨h l hnodup hl, ?_⟩
  by_cases hroots : roots = []
  · -- nothing leads away from the empty set
    have hempty : ∀ S, Reach (subsetSucc all A w) roots S → S = [] := by
      intro S hS
      induction hS with
      | refl => exact hroots
      | tail _ hstep ih =>
        obtain ⟨c, hc⟩ := hstep
        rw [ih] at hc
        exact absurd rfl ((mem_subsetSucc hw).mp hc).1
    have hsub : l ⊆ [[]] := fun S hS => mem_singleton.mpr (hempty S (hl S hS))
    have hle : l.length ≤ 1 := (hnodup.subperm hsub).length_le
    exact hle.trans_lt (Nat.one_lt_two_pow h0.ne')
  · refine lt_of_le_of_lt (length_le_flatten (fun S hS => ?_)) (h l hnodup hl)
    rcases reach_subset hw (hl S hS) with rfl | ⟨hne, -⟩
    · exact hroots
    · exact hne

/-! ## The automaton of the subsets -/

/-- Sorting different letters gives an ascending list. -/
theorem sortMoves_ascending (h : (l.map Prod.fst).Nodup) : Ascending (sortMoves l) := by
  have hsorted : (sortMoves l).Pairwise (fun a b => a.1 ≤ b.1) :=
    pairwise_insertionSort _ l
  have hnodup : (sortMoves l).Pairwise (fun a b => a.1 ≠ b.1) :=
    pairwise_map.mp (((perm_insertionSort _ l).map Prod.fst).nodup_iff.mpr h)
  exact (hsorted.and hnodup).imp (fun hab => lt_of_le_of_ne hab.1 hab.2)

/-- The transitions of every subset can be stored. -/
theorem subsets_ordered (all : Bool) (hw : A.states ≤ 2 ^ w) (hs : A.sigma ≤ P.sigma) :
    Ordered P (subsetSucc all A w) sortMoves where
  perm := fun l => perm_insertionSort _ l
  distinct := subsetSucc_distinct all A w
  ascending := by
    rintro l ⟨S, hl⟩
    refine sortMoves_ascending ?_
    rw [hl]
    exact subsetSucc_distinct all A w S
  letters := by
    intro S m hm
    obtain ⟨t, ht⟩ := exists_mem_of_ne_nil _ ((mem_subsetSucc hw).mp hm).1
    obtain ⟨s, -, hs'⟩ := mem_children.mp ht
    exact lt_of_lt_of_le (A.letters s _ (mem_of_target hs')) hs

/-- **THE POWERSET** ends with an automaton of all subsets, unless there are too many. -/
theorem powerset_spec (all : Bool) (h0 : 0 < w) (h64 : w ≤ 64) (hw : A.states ≤ 2 ^ w)
    (hs : A.sigma ≤ P.sigma)
    (hsmall : Within (subsetSucc all A w) roots (fun l => l.flatten.length < 2 ^ w))
    (hint powerLimit : Nat) :
    (∃ s keys, powerset P all A w roots hint powerLimit = some s.2 ∧
        Explored P (subsets_lawful w) (subsetSucc all A w) (subsetFinal all A) sortMoves roots
          keys.length s keys) ∨
      (powerset P all A w roots hint powerLimit = none ∧
        ¬ Within (subsetSucc all A w) roots
          (Enough P (fun _ => True) (fun l => l.flatten.length) powerLimit
            (keyLen P (subsetSucc all A w) sortMoves))) := by
  have hfits := fits_within h0 hw hsmall
  obtain ⟨m0, hnew, h0'⟩ := new_spec h64 hint
  obtain ⟨hroom1, hroom2⟩ := hfits [roots] (nodup_singleton roots)
    (fun S hS => by rw [mem_singleton.mp hS]; exact .refl)
  obtain ⟨m1, hins, h1⟩ := findOrAdd_new h0' not_mem_nil hroom1 hroom2
  unfold powerset
  rw [hnew, bind_some, hins]
  have hpower : ∀ {t keys}, (subsets_lawful w).Holds t keys →
      t.data.length = keys.flatten.length := by
    intro t keys h
    rw [h.data]
  rcases explore_spec (subsets_ordered all hw hs) hfits hpower (subsets_within hw all roots)
    (Explored.start h1) (lt_succ_self _) with ⟨s, keys, hrun, hdone⟩ | ⟨hrun, hfull⟩
  · exact .inl ⟨s, keys, congrArg (Option.map Prod.snd) hrun, hdone⟩
  · exact .inr ⟨congrArg (Option.map Prod.snd) hrun, hfull⟩

end DfaSetOp
