import Mathlib.Data.List.Induction
import Mathlib.Data.Set.Card

/-! # Partial deterministic automata

    The words a state accepts, the states a word leads to, and the two facts that
    minimisation by merging rests on: states whose own data and whose successors' languages
    are the same accept the same words, and in an acyclic automaton without useless states
    and without two states of the same data every two states accept different words. -/

namespace Dfa

open List Option Function

/-- Final states, and at most one successor for every letter. -/
structure Pdfa (S A : Type) where
  final : S → Bool
  next : S → A → Option S

variable {S S' A : Type} {c : A} {R : S → S' → Prop}

/-- Whether the word is accepted from the state. -/
def Pdfa.accepts (M : Pdfa S A) : S → List A → Bool
  | s, [] => M.final s
  | s, c :: w => (M.next s c).elim false (fun t => M.accepts t w)

/-- The state that the word leads to. -/
def Pdfa.walk (M : Pdfa S A) : S → List A → Option S
  | s, [] => some s
  | s, c :: w => (M.next s c).bind (fun t => M.walk t w)

variable {M : Pdfa S A}

@[simp] theorem accepts_nil (M : Pdfa S A) (s : S) : M.accepts s [] = M.final s := rfl

theorem accepts_cons (M : Pdfa S A) (s : S) (c : A) (w : List A) :
    M.accepts s (c :: w) = (M.next s c).elim false (fun t => M.accepts t w) := rfl

variable {s t : S} {u : List A} {M' : Pdfa S' A} {s' : S'} {P : S → Prop} {l : List S}

/-- A letter with a transition leads on. -/
theorem accepts_cons_some (h : M.next s c = some t) (w : List A) :
    M.accepts s (c :: w) = M.accepts t w := by
  rw [accepts_cons, h]
  rfl

/-- Without a transition no word is accepted. -/
theorem accepts_cons_none (h : M.next s c = none) (w : List A) : M.accepts s (c :: w) = false := by
  rw [accepts_cons, h]
  rfl

/-- Walking along a concatenation is walking twice. -/
theorem walk_append (M : Pdfa S A) (s : S) (u w : List A) :
    M.walk s (u ++ w) = (M.walk s u).bind (fun t => M.walk t w) := by
  induction u generalizing s with
  | nil => rfl
  | cons c u ih =>
    show (M.next s c).bind _ = ((M.next s c).bind _).bind _
    rw [bind_assoc]
    exact congrArg _ (funext (fun t => ih t))

theorem walk_snoc (M : Pdfa S A) (s : S) (u : List A) (c : A) :
    M.walk s (u ++ [c]) = (M.walk s u).bind (fun t => M.next t c) := by
  rw [walk_append]
  congr 1
  funext t
  show (M.next t c).bind some = M.next t c
  cases M.next t c <;> rfl

/-- After a walk the rest of the word decides. -/
theorem accepts_append (h : M.walk s u = some t) (w : List A) :
    M.accepts s (u ++ w) = M.accepts t w := by
  induction u generalizing s with
  | nil =>
    obtain rfl : s = t := some.inj h
    rfl
  | cons c u ih =>
    obtain ⟨r, hr, hw⟩ := bind_eq_some_iff.mp h
    rw [cons_append, accepts_cons_some hr]
    exact ih hw

/-- Every beginning of an accepted word can be walked. -/
theorem walk_of_accepts {v : List A} (h : M.accepts s (u ++ v) = true) :
    ∃ t, M.walk s u = some t := by
  induction u generalizing s with
  | nil => exact ⟨s, rfl⟩
  | cons c u ih =>
    cases hr : M.next s c with
    | none =>
      rw [cons_append, accepts_cons_none hr] at h
      cases h
    | some r =>
      rw [cons_append, accepts_cons_some hr] at h
      obtain ⟨t, ht⟩ := ih h
      refine ⟨t, ?_⟩
      show (M.next s c).bind _ = some t
      rw [hr]
      exact ht

/-! ## Related automata -/

/-- States that have the same data up to a relation accept the same words. -/
theorem accepts_eq_of_related (hfinal : ∀ s s', R s s' → M.final s = M'.final s')
    (hnext : ∀ s s' c, R s s' → Option.Rel R (M.next s c) (M'.next s' c)) (h : R s s') :
    M.accepts s = M'.accepts s' := by
  funext w
  induction w generalizing s s' with
  | nil => exact hfinal s s' h
  | cons c w ih =>
    have hrel := hnext s s' c h
    rw [accepts_cons, accepts_cons]
    cases ht : M.next s c with
    | none =>
      rw [ht] at hrel
      cases ht' : M'.next s' c with
      | none => rfl
      | some t' =>
        rw [ht'] at hrel
        cases hrel
    | some t =>
      rw [ht] at hrel
      cases ht' : M'.next s' c with
      | none =>
        rw [ht'] at hrel
        cases hrel
      | some t' =>
        rw [ht'] at hrel
        cases hrel with
        | some hr => exact ih hr

/-- States from which nothing is accepted can be left out. -/
theorem accepts_eq_of_trim {f : S → Option S'}
    (hdead : ∀ s, f s = none → ∀ w, M.accepts s w = false)
    (hfinal : ∀ s s', f s = some s' → M'.final s' = M.final s)
    (hnext : ∀ s s' c, f s = some s' → M'.next s' c = (M.next s c).bind f) (h : f s = some s') :
    M'.accepts s' = M.accepts s := by
  funext w
  induction w generalizing s s' with
  | nil => exact hfinal s s' h
  | cons c w ih =>
    rw [accepts_cons, accepts_cons, hnext s s' c h]
    cases ht : M.next s c with
    | none => rfl
    | some t =>
      rw [bind_some]
      cases hf : f t with
      | none => exact (hdead t hf w).symm
      | some t' => exact ih hf

/-- Related states walk to related states. -/
theorem walk_related (hnext : ∀ s s' c, R s s' → Option.Rel R (M.next s c) (M'.next s' c))
    (h : R s s') (hw : M.walk s u = some t) : ∃ t', M'.walk s' u = some t' ∧ R t t' := by
  induction u generalizing s s' with
  | nil => exact ⟨s', rfl, some.inj hw ▸ h⟩
  | cons c u ih =>
    obtain ⟨r, hr, hw⟩ := bind_eq_some_iff.mp hw
    have hrel := hnext s s' c h
    rw [hr] at hrel
    cases hr' : M'.next s' c with
    | none =>
      rw [hr'] at hrel
      cases hrel
    | some r' =>
      rw [hr'] at hrel
      cases hrel with
      | some hrr =>
        obtain ⟨t', ht', hrt⟩ := ih hrr hw
        refine ⟨t', ?_, hrt⟩
        show (M'.next s' c).bind _ = some t'
        rw [hr']
        exact ht'

/-- A set of states that no letter leaves. -/
def Closed (M : Pdfa S A) (P : S → Prop) : Prop := ∀ s c t, P s → M.next s c = some t → P t

/-- Two automata that are the same on a closed set accept the same words there. -/
theorem accepts_congr {M' : Pdfa S A} (hP : Closed M P) (hfinal : ∀ s, P s → M'.final s = M.final s)
    (hnext : ∀ s, P s → M'.next s = M.next s) (hs : P s) : M'.accepts s = M.accepts s := by
  refine (accepts_eq_of_related (R := fun s s' => s = s' ∧ P s) ?_ ?_ ⟨rfl, hs⟩).symm
  · rintro s _ ⟨rfl, hs⟩
    exact (hfinal s hs).symm
  · rintro s _ c ⟨rfl, hs⟩
    rw [hnext s hs]
    cases ht : M.next s c with
    | none => exact .none
    | some t => exact .some ⟨rfl, hP s c t hs ht⟩

/-! ## Acyclic automata -/

/-- Every letter leads to a smaller rank. -/
def Ranked (M : Pdfa S A) (P : S → Prop) (rank : S → Nat) : Prop :=
  ∀ s c t, P s → M.next s c = some t → rank t < rank s

section

variable {rank : S → Nat} (hP : Closed M P) (hrank : Ranked M P rank) {w : List A}

include hP hrank

/-- No accepted word is longer than the rank of its state. -/
theorem length_le_rank (hs : P s) (h : M.accepts s w = true) : w.length ≤ rank s := by
  induction w generalizing s with
  | nil => exact Nat.zero_le _
  | cons c w ih =>
    cases ht : M.next s c with
    | none =>
      rw [accepts_cons_none ht] at h
      cases h
    | some t =>
      rw [accepts_cons_some ht] at h
      have hle := ih (hP s c t hs ht) h
      have hlt := hrank s c t hs ht
      exact hle.trans_lt hlt

/-- A state and a state behind it accept different words. -/
theorem accepts_ne_of_walk (hs : P s) (hu : u ≠ []) (hwalk : M.walk s u = some t)
    (hw : M.accepts s w = true) : M.accepts s ≠ M.accepts t := by
  intro heq
  -- every accepted word can be made longer by the word between the two states
  have hlong : ∀ n, ∃ w, M.accepts s w = true ∧ n ≤ w.length := by
    intro n
    induction n with
    | zero => exact ⟨w, hw, Nat.zero_le _⟩
    | succ n ih =>
      obtain ⟨v, hv, hn⟩ := ih
      refine ⟨u ++ v, ?_, ?_⟩
      · rw [accepts_append hwalk, ← heq]
        exact hv
      · have := length_pos_iff.mpr hu
        rw [length_append]
        omega
  obtain ⟨v, hv, hlen⟩ := hlong (rank s + 1)
  have := length_le_rank hP hrank hs hv
  omega

/-- States of an acyclic set that all accept something fall into the same class if they accept
    the same words, provided that the classes behind the letters decide the class then. -/
theorem class_eq_of_accepts_eq {K : Type} {cls : S → K}
    (hlive : ∀ s, P s → ∃ w, M.accepts s w = true)
    (hdata : ∀ s t, P s → P t → M.accepts s = M.accepts t →
      (∀ c, (M.next s c).map cls = (M.next t c).map cls) → cls s = cls t) (hs : P s) (ht : P t)
    (heq : M.accepts s = M.accepts t) : cls s = cls t := by
  induction hn : rank s using Nat.strongRecOn generalizing s t with
  | ind n ih =>
    refine hdata s t hs ht heq (fun c => ?_)
    have hquot : ∀ w, M.accepts s (c :: w) = M.accepts t (c :: w) := fun w => congrFun heq _
    cases hsc : M.next s c with
    | none =>
      cases htc : M.next t c with
      | none => rfl
      | some b =>
        -- a live target is told from a missing one by a word
        obtain ⟨w, hw⟩ := hlive b (hP t c b ht htc)
        have := hquot w
        rw [accepts_cons_none hsc, accepts_cons_some htc, hw] at this
        cases this
    | some a =>
      have ha : P a := hP s c a hs hsc
      cases htc : M.next t c with
      | none =>
        obtain ⟨w, hw⟩ := hlive a ha
        have := hquot w
        rw [accepts_cons_some hsc, accepts_cons_none htc, hw] at this
        cases this
      | some b =>
        -- the targets have the same language, and a smaller rank
        have hab : M.accepts a = M.accepts b := by
          funext w
          have := hquot w
          rwa [accepts_cons_some hsc, accepts_cons_some htc] at this
        rw [map_some, map_some, ih (rank a) (hn ▸ hrank s c a hs hsc) ha (hP t c b ht htc) hab rfl]

/-- **NO TWO STATES OF THE SAME DATA**: in an acyclic set of states that all accept something,
    different states accept different words. -/
theorem eq_of_accepts_eq (hlive : ∀ s, P s → ∃ w, M.accepts s w = true)
    (hdata : ∀ s t, P s → P t → M.final s = M.final t → M.next s = M.next t → s = t) (hs : P s)
    (ht : P t) (heq : M.accepts s = M.accepts t) : s = t := by
  show id s = id t
  refine class_eq_of_accepts_eq hP hrank hlive (fun x y hx hy hxy hnext => ?_) hs ht heq
  refine hdata x y hx hy (congrFun hxy []) (funext (fun c => ?_))
  have := hnext c
  rwa [Option.map_id, id, id] at this

end

/-! ## Layers -/

/-- The states of the list, each of which only leads to states behind it. -/
def Layered (M : Pdfa S A) : List S → Prop
  | [] => True
  | s :: l => (∀ c t, M.next s c = some t → t ∈ l) ∧ Layered M l

theorem Layered.congr {M' : Pdfa S A} (h : Layered M l) (hnext : ∀ s ∈ l, M'.next s = M.next s) :
    Layered M' l := by
  induction l with
  | nil => trivial
  | cons s l ih =>
    refine ⟨fun c t ht => ?_, ih h.2 (fun t ht => hnext t (mem_cons_of_mem _ ht))⟩
    rw [hnext s mem_cons_self] at ht
    exact h.1 c t ht

/-- The states of the layers lead nowhere else. -/
theorem Layered.closed (h : Layered M l) : Closed M (· ∈ l) := by
  induction l with
  | nil =>
    intro s c t hs
    cases hs
  | cons x l ih =>
    intro s c t hs ht
    rcases mem_cons.mp hs with rfl | hs
    · exact mem_cons_of_mem _ (h.1 c t ht)
    · exact mem_cons_of_mem _ (ih h.2 s c t hs ht)

/-- The place in the list is a rank, so there is no cycle. -/
theorem Layered.ranked (h : Layered M l) (hnodup : l.Nodup) :
    ∃ rank : S → Nat, Ranked M (· ∈ l) rank := by
  classical
  suffices hrank : ∃ rank : S → Nat, Ranked M (· ∈ l) rank ∧ ∀ s ∈ l, rank s < l.length from
    hrank.imp (fun _ h => h.1)
  induction l with
  | nil => exact ⟨fun _ => 0, fun s c t hs => absurd hs not_mem_nil, fun s hs =>
    absurd hs not_mem_nil⟩
  | cons x l ih =>
    obtain ⟨hx, hnodup⟩ := nodup_cons.mp hnodup
    obtain ⟨rank, hrank, hlt⟩ := ih h.2 hnodup
    -- the first state gets the highest rank
    have hold : ∀ s ∈ l, update rank x l.length s = rank s := by
      intro s hs
      refine update_of_ne ?_ _ _
      rintro rfl
      exact hx hs
    refine ⟨update rank x l.length, fun s c t hs ht => ?_, fun s hs => ?_⟩
    · rcases mem_cons.mp hs with rfl | hs
      · have htl := h.1 c t ht
        rw [update_self, hold t htl]
        exact hlt t htl
      · rw [hold s hs, hold t (h.2.closed s c t hs ht)]
        exact hrank s c t hs ht
    · rcases mem_cons.mp hs with rfl | hs
      · rw [update_self]
        exact Nat.lt_succ_self _
      · rw [hold s hs]
        exact Nat.lt_succ_of_lt (hlt s hs)

/-- A state that is final or leads on accepts some word. -/
theorem Layered.live (h : Layered M l)
    (hdata : ∀ s ∈ l, M.final s = true ∨ ∃ c t, M.next s c = some t) :
    ∀ s ∈ l, ∃ w, M.accepts s w = true := by
  induction l with
  | nil =>
    intro s hs
    cases hs
  | cons x l ih =>
    have ih := ih h.2 (fun s hs => hdata s (mem_cons_of_mem _ hs))
    intro s hs
    rcases mem_cons.mp hs with rfl | hs
    · rcases hdata s mem_cons_self with hfinal | ⟨c, t, ht⟩
      · exact ⟨[], hfinal⟩
      · obtain ⟨w, hw⟩ := ih t (h.1 c t ht)
        exact ⟨c :: w, (accepts_cons_some ht w).trans hw⟩
    · exact ih s hs

/-- States of different data in layers accept different words. -/
theorem Layered.eq_of_accepts_eq (h : Layered M l) (hnodup : l.Nodup)
    (hlive : ∀ s ∈ l, M.final s = true ∨ ∃ c t, M.next s c = some t)
    (hdata : ∀ s t, s ∈ l → t ∈ l → M.final s = M.final t → M.next s = M.next t → s = t)
    (hs : s ∈ l) (ht : t ∈ l) (heq : M.accepts s = M.accepts t) : s = t := by
  obtain ⟨rank, hrank⟩ := h.ranked hnodup
  exact Dfa.eq_of_accepts_eq h.closed hrank (h.live hlive) hdata hs ht heq

/-- States with different languages count the languages. -/
theorem ncard_languages (hnodup : l.Nodup)
    (hinj : ∀ s t, s ∈ l → t ∈ l → M.accepts s = M.accepts t → s = t) {L : Set (List A → Bool)}
    (hL : ∀ f, f ∈ L ↔ ∃ s ∈ l, M.accepts s = f) : L.ncard = l.length := by
  classical
  have hset : L = ((l.map M.accepts).toFinset : Set (List A → Bool)) := by
    ext f
    rw [hL f, Finset.mem_coe, List.mem_toFinset, List.mem_map]
  rw [hset, Set.ncard_coe_finset, toFinset_card_of_nodup
    (hnodup.map_on (fun s hs t ht heq => hinj s t hs ht heq)), length_map]

end Dfa
