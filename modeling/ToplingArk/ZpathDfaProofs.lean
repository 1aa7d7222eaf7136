import Mathlib.Data.Set.Card
import Mathlib.Data.List.Lex
import ToplingArk.AutomataProofs

/-! # Automata with compressed paths

    A state may have a string that is read before its final bit and its transitions count:
    a chain of single-child states that has been folded into its end.  Read letter by letter,
    such an automaton is a plain one whose states also say how much of the string is left.

    The words of an acyclic automaton are listed in order by going through the transitions in
    order, the word of a state before the words behind it. -/

namespace Zpath

open Automata List Finset

/-- What is read of an automaton: `get_all_move` gives the transitions by ascending letters,
    and a state with a string is a state for which `is_pzip` holds. -/
structure ZDfa where
  states : Nat
  moves : Nat → List (Nat × Nat)
  term : Nat → Bool
  zpath : Nat → Option (List Nat)
  ascending : ∀ s, Ascending (moves s)
  targets : ∀ s, ∀ m ∈ moves s, m.2 < states

variable (D : ZDfa) {s c : Nat} {pre w v : List Nat}

/-- The string of a state, empty for most. -/
def ZDfa.zdata (s : Nat) : List Nat := (D.zpath s).getD []

/-- The automaton letter by letter: a state, and what is left of its string. -/
def ZDfa.dfa : Dfa.Pdfa (Nat × List Nat) Nat where
  final := fun p => p.2.isEmpty && D.term p.1
  next := fun p c =>
    match p.2 with
    | [] => (target (D.moves p.1) c).map (fun t => (t, D.zdata t))
    | z :: zs => if z = c then some (p.1, zs) else none

/-- A state accepts its string and then what its end accepts. -/
def ZDfa.accepts (s : Nat) (w : List Nat) : Bool := D.dfa.accepts (s, D.zdata s) w

/-- One step, by any letter. -/
def ZDfa.Edge (s t : Nat) : Prop := ∃ c, (c, t) ∈ D.moves s

/-- No path leads back. -/
def ZDfa.Acyclic : Prop := ∀ s, ¬ Relation.TransGen D.Edge s s

/-- A final state can be reached from every state. -/
def ZDfa.Live : Prop := ∀ s, s < D.states → ∃ w, D.accepts s w = true

variable {D}

/-! ## Languages -/

theorem accepts_end_cons (s c : Nat) (w : List Nat) :
    D.dfa.accepts (s, []) (c :: w) =
      (target (D.moves s) c).elim false (fun t => D.accepts t w) := by
  show ((target (D.moves s) c).map _).elim false _ = _
  cases target (D.moves s) c <;> rfl

/-- A string is read before anything else. -/
theorem accepts_string (s : Nat) (zs w : List Nat) :
    D.dfa.accepts (s, zs) w = true ↔ ∃ v, w = zs ++ v ∧ D.dfa.accepts (s, []) v = true := by
  induction zs generalizing w with
  | nil =>
    constructor
    · exact fun h => ⟨w, rfl, h⟩
    · rintro ⟨v, rfl, h⟩
      exact h
  | cons z zs ih =>
    cases w with
    | nil =>
      constructor
      · intro h
        cases h
      · rintro ⟨v, hv, -⟩
        cases hv
    | cons c w =>
      by_cases hc : z = c
      · subst hc
        have hnext : D.dfa.next (s, z :: zs) z = some (s, zs) := if_pos rfl
        rw [Dfa.accepts_cons_some hnext, ih]
        simp only [cons_append, cons.injEq, true_and]
      · have hnext : D.dfa.next (s, z :: zs) c = none := if_neg hc
        rw [Dfa.accepts_cons_none hnext]
        constructor
        · intro h
          cases h
        · rintro ⟨v, hv, -⟩
          exact absurd (cons.inj hv).1.symm hc

/-- A word of a state begins with its edge string. -/
theorem accepts_iff (s : Nat) (w : List Nat) :
    D.accepts s w = true ↔ ∃ v, w = D.zdata s ++ v ∧ D.dfa.accepts (s, []) v = true :=
  accepts_string s _ w

/-- A state accepts its string if it is final, and the words behind its transitions. -/
theorem accepts_iff_moves (s : Nat) (w : List Nat) :
    D.accepts s w = true ↔ (D.term s = true ∧ w = D.zdata s) ∨
      ∃ m ∈ D.moves s, ∃ v, D.accepts m.2 v = true ∧ w = D.zdata s ++ m.1 :: v := by
  rw [accepts_iff]
  constructor
  · rintro ⟨v, rfl, hv⟩
    cases v with
    | nil => exact .inl ⟨hv, append_nil _⟩
    | cons c v =>
      rw [accepts_end_cons] at hv
      cases ht : target (D.moves s) c with
      | none =>
        rw [ht] at hv
        cases hv
      | some t =>
        rw [ht] at hv
        exact .inr ⟨(c, t), mem_of_target ht, v, hv, rfl⟩
  · rintro (⟨hterm, rfl⟩ | ⟨m, hm, v, hv, rfl⟩)
    · exact ⟨[], (append_nil _).symm, hterm⟩
    · refine ⟨m.1 :: v, rfl, ?_⟩
      rw [accepts_end_cons, target_of_mem (D.ascending s) hm]
      exact hv

/-- In a live automaton a state without transitions is final. -/
theorem ZDfa.Live.term_of_leaf (h : D.Live) (hs : s < D.states) (hleaf : D.moves s = []) :
    D.term s = true := by
  obtain ⟨w, hw⟩ := h s hs
  rcases (accepts_iff_moves s w).mp hw with ⟨hterm, -⟩ | ⟨m, hm, -⟩
  · exact hterm
  · rw [hleaf] at hm
    cases hm

/-! ## Ranks -/

/-- In a finite graph without cycles every edge leads to a smaller rank. -/
theorem ZDfa.Acyclic.exists_rank (h : D.Acyclic) :
    ∃ rank : Nat → Nat, (∀ s, rank s ≤ D.states) ∧ ∀ s t, D.Edge s t → rank t < rank s := by
  have hlt : ∀ s t, Relation.TransGen D.Edge s t → t < D.states := by
    intro s t hst
    obtain ⟨r, -, c, hc⟩ := Relation.TransGen.tail'_iff.mp hst
    exact D.targets r _ hc
  have hsub : ∀ s, {t | Relation.TransGen D.Edge s t} ⊆ (range D.states : Set Nat) :=
    fun s t ht => mem_coe.mpr (Finset.mem_range.mpr (hlt s t ht))
  have hfin : ∀ s, {t | Relation.TransGen D.Edge s t}.Finite := fun s =>
    (Finset.finite_toSet _).subset (hsub s)
  -- the rank is the number of states that can be reached
  refine ⟨fun s => {t | Relation.TransGen D.Edge s t}.ncard, ?_, ?_⟩
  · intro s
    have hle := Set.ncard_le_ncard (hsub s) (Finset.finite_toSet _)
    rwa [Set.ncard_coe_finset, card_range] at hle
  · intro s t hst
    refine Set.ncard_lt_ncard ⟨fun r hr => Relation.TransGen.head hst hr, fun hback => ?_⟩ (hfin s)
    exact h t (hback (Relation.TransGen.single hst))

/-! ## The words in order -/

/-- The word of a state that is final. -/
def ZDfa.own (D : ZDfa) (s : Nat) (w : List Nat) : List (List Nat) := if D.term s then [w] else []

/-- The words of a state in order, through so many transitions at most. -/
def ZDfa.wordsUpTo (D : ZDfa) : Nat → Nat → List (List Nat)
  | 0, _ => []
  | k + 1, s =>
    D.own s (D.zdata s) ++
      (D.moves s).flatMap (fun m => (D.wordsUpTo k m.2).map (fun w => D.zdata s ++ m.1 :: w))

/-- The words of a state in order, if there is no cycle. -/
def ZDfa.words (D : ZDfa) (s : Nat) : List (List Nat) := D.wordsUpTo (D.states + 1) s

/-- The words behind some of the transitions of a state, after a word that leads to it. -/
def ZDfa.below (D : ZDfa) (pre : List Nat) (ms : List (Nat × Nat)) : List (List Nat) :=
  ms.flatMap (fun m => (D.words m.2).map (fun w => pre ++ m.1 :: w))

theorem below_cons (pre : List Nat) (m : Nat × Nat) (ms : List (Nat × Nat)) :
    D.below pre (m :: ms) = (D.words m.2).map (fun w => pre ++ m.1 :: w) ++ D.below pre ms := rfl

theorem below_append (pre : List Nat) (ms ms' : List (Nat × Nat)) :
    D.below pre (ms ++ ms') = D.below pre ms ++ D.below pre ms' := flatMap_append

/-- The words that go on from a state. -/
theorem mem_below {ms : List (Nat × Nat)} :
    w ∈ D.below pre ms ↔ ∃ m ∈ ms, ∃ v ∈ D.words m.2, w = pre ++ m.1 :: v := by
  simp only [ZDfa.below, mem_flatMap, List.mem_map, eq_comm]

/-- Through more transitions than the rank there are no more words. -/
theorem wordsUpTo_eq {rank : Nat → Nat} (hrank : ∀ s t, D.Edge s t → rank t < rank s) :
    ∀ k k' s, rank s < k → rank s < k' → D.wordsUpTo k s = D.wordsUpTo k' s := by
  intro k
  induction k with
  | zero =>
    intro k' s hk
    cases hk
  | succ k ih =>
    intro k' s hk hk'
    cases k' with
    | zero => cases hk'
    | succ k' =>
      rw [ZDfa.wordsUpTo, ZDfa.wordsUpTo]
      congr 1
      refine flatMap_congr (fun m hm => ?_)
      have hlt := hrank s m.2 ⟨m.1, hm⟩
      rw [ih k' m.2 (by omega) (by omega)]

/-- The words of a state: its own, then those behind its transitions. -/
theorem ZDfa.Acyclic.words_eq (h : D.Acyclic) (s : Nat) :
    D.words s = D.own s (D.zdata s) ++ D.below (D.zdata s) (D.moves s) := by
  obtain ⟨rank, hle, hrank⟩ := h.exists_rank
  rw [ZDfa.words, ZDfa.wordsUpTo, ZDfa.below]
  congr 1
  refine flatMap_congr (fun m hm => ?_)
  have hlt := hrank s m.2 ⟨m.1, hm⟩
  have hs := hle s
  rw [ZDfa.words, wordsUpTo_eq hrank D.states (D.states + 1) m.2 (by omega) (by omega)]

/-- The words of a state after a word that leads to it. -/
theorem ZDfa.Acyclic.map_words (h : D.Acyclic) (pre : List Nat) (s : Nat) :
    (D.words s).map (fun w => pre ++ w) =
      D.own s (pre ++ D.zdata s) ++ D.below (pre ++ D.zdata s) (D.moves s) := by
  rw [h.words_eq, map_append]
  congr 1
  · unfold ZDfa.own
    split <;> rfl
  · simp only [ZDfa.below, map_flatMap, List.map_map]
    refine flatMap_congr (fun m _ => map_congr_left (fun w _ => ?_))
    exact (append_assoc _ _ _).symm

theorem mem_own : v ∈ D.own s w ↔ D.term s = true ∧ v = w := by
  unfold ZDfa.own
  split
  · rename_i hterm
    simp [hterm]
  · rename_i hterm
    simp [hterm]

/-- **THE LIST HAS EXACTLY THE WORDS OF THE STATE.** -/
theorem ZDfa.Acyclic.mem_words (h : D.Acyclic) (s : Nat) (w : List Nat) :
    w ∈ D.words s ↔ D.accepts s w = true := by
  obtain ⟨rank, -, hrank⟩ := h.exists_rank
  -- by induction on the rank of the state
  induction hr : rank s using Nat.strong_induction_on generalizing s w with
  | _ r ih =>
    rw [h.words_eq, mem_append, mem_own, mem_below, accepts_iff_moves]
    refine or_congr Iff.rfl ?_
    constructor
    · rintro ⟨m, hm, v, hv, hw⟩
      exact ⟨m, hm, v, (ih _ (hr ▸ hrank s m.2 ⟨m.1, hm⟩) m.2 v rfl).mp hv, hw⟩
    · rintro ⟨m, hm, v, hv, hw⟩
      exact ⟨m, hm, v, (ih _ (hr ▸ hrank s m.2 ⟨m.1, hm⟩) m.2 v rfl).mpr hv, hw⟩

theorem append_lt_append (h : v < w) : pre ++ v < pre ++ w :=
  List.Lex.append_left _ h pre

theorem append_cons_lt {d : Nat} (h : c < d) : pre ++ c :: v < pre ++ d :: w :=
  append_lt_append (List.Lex.rel h)

theorem lt_append_cons : pre < pre ++ c :: v := by
  have h : pre ++ [] < pre ++ c :: v := append_lt_append List.Lex.nil
  rwa [append_nil] at h

/-- **THE LIST IS IN ORDER.** -/
theorem ZDfa.Acyclic.words_sorted (h : D.Acyclic) (s : Nat) : (D.words s).Pairwise (· < ·) := by
  obtain ⟨rank, -, hrank⟩ := h.exists_rank
  induction hr : rank s using Nat.strong_induction_on generalizing s with
  | _ r ih =>
    rw [h.words_eq, pairwise_append]
    refine ⟨?_, ?_, ?_⟩
    · unfold ZDfa.own
      split
      · exact pairwise_singleton _ _
      · exact List.Pairwise.nil
    · unfold ZDfa.below
      rw [pairwise_flatMap]
      constructor
      · -- behind one transition
        intro m hm
        rw [pairwise_map]
        refine (ih _ (hr ▸ hrank s m.2 ⟨m.1, hm⟩) m.2 rfl).imp (fun hlt => ?_)
        exact append_lt_append (List.Lex.cons hlt)
      · -- behind two transitions
        refine (D.ascending s).imp (fun hlt x hx y hy => ?_)
        obtain ⟨v, -, rfl⟩ := mem_map.mp hx
        obtain ⟨w, -, rfl⟩ := mem_map.mp hy
        exact append_cons_lt hlt
    · intro x hx y hy
      obtain ⟨-, rfl⟩ := mem_own.mp hx
      obtain ⟨m, -, v, -, rfl⟩ := mem_below.mp hy
      exact lt_append_cons

end Zpath
