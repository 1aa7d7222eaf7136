import ToplingArk.ZpathDfaProofs

/-! # Paths through an automaton with compressed paths

    A path from the root to a state, by the child that is taken at every state, is a place in
    the list of words in order: the words before the state and the words behind it are read
    off the path. -/

namespace Zpath

open Automata List

variable {D : ZDfa} {root : Nat}

/-- A state on the path, and the child that is taken there. -/
structure Anc where
  parent : Nat
  idx : Nat
  ch : Nat

/-- The path, the innermost step first, leads from the root to the state. -/
def Leads (D : ZDfa) (root : Nat) : List Anc → Nat → Prop
  | [], s => s = root
  | a :: anc, s => Leads D root anc a.parent ∧ (D.moves a.parent)[a.idx]? = some (a.ch, s)

/-- What is read along a path, before the string of its state. -/
def pathWord (D : ZDfa) : List Anc → List Nat
  | [] => []
  | a :: anc => pathWord D anc ++ D.zdata a.parent ++ [a.ch]

/-- The word of the state at the end of a path. -/
def full (D : ZDfa) (anc : List Anc) (s : Nat) : List Nat := pathWord D anc ++ D.zdata s

theorem full_cons (a : Anc) (anc : List Anc) (s : Nat) :
    full D (a :: anc) s = (full D anc a.parent ++ [a.ch]) ++ D.zdata s := rfl

theorem prefix_full_cons (a : Anc) (anc : List Anc) (s : Nat) :
    full D anc a.parent <+: full D (a :: anc) s := by
  rw [full_cons, append_assoc]
  exact prefix_append _ _

/-! ## The words around a path -/

/-- The words behind the subtree of the path. -/
def after (D : ZDfa) : List Anc → List (List Nat)
  | [] => []
  | a :: anc => D.below (full D anc a.parent) ((D.moves a.parent).drop (a.idx + 1)) ++ after D anc

/-- The words from the `i`-th child of the state on. -/
def rest (D : ZDfa) (anc : List Anc) (s i : Nat) : List (List Nat) :=
  D.below (full D anc s) ((D.moves s).drop i) ++ after D anc

/-- The words before the subtree of the path. -/
def before (D : ZDfa) : List Anc → List (List Nat)
  | [] => []
  | a :: anc =>
    before D anc ++ D.own a.parent (full D anc a.parent) ++
      D.below (full D anc a.parent) ((D.moves a.parent).take a.idx)

/-- The words before the `i`-th child of the state. -/
def upTo (D : ZDfa) (anc : List Anc) (s i : Nat) : List (List Nat) :=
  before D anc ++ D.own s (full D anc s) ++ D.below (full D anc s) ((D.moves s).take i)

section

variable (hacyclic : D.Acyclic) {s i : Nat} {m : Nat × Nat}

include hacyclic

/-- The words by way of a child. -/
theorem words_child (anc : List Anc) (s i : Nat) (m : Nat × Nat) :
    (D.words m.2).map (fun w => full D anc s ++ m.1 :: w) =
      D.own m.2 (full D (⟨s, i, m.1⟩ :: anc) m.2) ++
        D.below (full D (⟨s, i, m.1⟩ :: anc) m.2) (D.moves m.2) := by
  have h := hacyclic.map_words (full D anc s ++ [m.1]) m.2
  rw [full_cons, ← h]
  simp only [append_assoc, singleton_append]

/-- Going down to a child leaves the words still to come as they are. -/
theorem rest_take (anc : List Anc) (hm : (D.moves s)[i]? = some m) :
    rest D anc s i = D.own m.2 (full D (⟨s, i, m.1⟩ :: anc) m.2) ++
      rest D (⟨s, i, m.1⟩ :: anc) m.2 0 := by
  obtain ⟨hlt, hget⟩ := List.getElem_of_getElem? hm
  rw [rest, drop_eq_getElem_cons hlt, hget, below_cons, words_child hacyclic anc s i m]
  simp only [rest, after, drop_zero, append_assoc]

/-- Going down to a child, the words before it are those before the child and its own ones. -/
theorem upTo_take (anc : List Anc) (hm : (D.moves s)[i]? = some m) :
    upTo D anc s (i + 1) = upTo D (⟨s, i, m.1⟩ :: anc) m.2 (D.moves m.2).length := by
  obtain ⟨hlt, hget⟩ := List.getElem_of_getElem? hm
  have hchild := words_child hacyclic anc s i m
  rw [upTo, take_succ_eq_append_getElem hlt, hget, below_append, below_cons, hchild, upTo,
    take_length]
  simp only [before, ZDfa.below, flatMap_nil, append_nil, append_assoc]

/-- **THE PATH SPLITS THE LIST OF WORDS.** -/
theorem words_split {anc : List Anc} (h : Leads D root anc s) :
    D.words root = before D anc ++ (D.own s (full D anc s) ++ rest D anc s 0) := by
  induction anc generalizing s with
  | nil =>
    obtain rfl := h
    rw [hacyclic.words_eq]
    simp only [before, rest, after, full, pathWord, nil_append, append_nil, drop_zero]
  | cons a anc ih =>
    obtain ⟨hparent, ha⟩ := h
    have hrest := rest_take hacyclic anc ha
    have hmoves : D.below (full D anc a.parent) (D.moves a.parent) =
        D.below (full D anc a.parent) ((D.moves a.parent).take a.idx) ++
          D.below (full D anc a.parent) ((D.moves a.parent).drop a.idx) := by
      rw [← below_append, take_append_drop]
    rw [ih hparent, rest, drop_zero, hmoves, before]
    have hdrop : D.below (full D anc a.parent) ((D.moves a.parent).drop a.idx) ++ after D anc =
        rest D anc a.parent a.idx := rfl
    simp only [append_assoc]
    rw [hdrop, hrest]

end

variable {anc : List Anc} {i s : Nat} {x : List Nat}

/-- Behind the last child only the words after the state are left. -/
theorem rest_end (h : (D.moves s).length ≤ i) : rest D anc s i = after D anc := by
  rw [rest, drop_eq_nil_of_le h]
  rfl

/-- The words up to a child and the rest. -/
theorem words_upTo (hacyclic : D.Acyclic) (h : Leads D root anc s) (i : Nat) :
    D.words root = upTo D anc s i ++ rest D anc s i := by
  rw [words_split hacyclic h, upTo, rest, rest, drop_zero, append_assoc, append_assoc,
    ← append_assoc (D.below _ _) (D.below _ _), ← below_append, take_append_drop]

/-- What comes before child `i`. -/
theorem mem_upTo :
    x ∈ upTo D anc s i ↔ x ∈ before D anc ∨ (D.term s = true ∧ x = full D anc s) ∨
      ∃ m ∈ (D.moves s).take i, ∃ v ∈ D.words m.2, x = full D anc s ++ m.1 :: v := by
  rw [upTo, mem_append, mem_append, mem_own, mem_below, or_assoc]

/-- What comes from child `i` on. -/
theorem mem_rest :
    x ∈ rest D anc s i ↔
      (∃ m ∈ (D.moves s).drop i, ∃ v ∈ D.words m.2, x = full D anc s ++ m.1 :: v) ∨
        x ∈ after D anc := by
  rw [rest, mem_append, mem_below]

theorem le_append (k v : List Nat) : k ≤ k ++ v := by
  cases v with
  | nil => exact le_of_eq (append_nil k).symm
  | cons c v => exact lt_append_cons.le

/-! ## The order along a path -/

theorem pathWord_append (a : Anc) (anc : List Anc) (r : List Nat) :
    pathWord D (a :: anc) ++ r = full D anc a.parent ++ a.ch :: r := by
  simp only [pathWord, full, append_assoc, singleton_append]

/-- What is before the subtree of a path is smaller than all that begins with the path. -/
theorem lt_of_mem_before (h : Leads D root anc s) (hx : x ∈ before D anc) (r : List Nat) :
    x < pathWord D anc ++ r := by
  induction anc generalizing s r with
  | nil => cases hx
  | cons a anc ih =>
    obtain ⟨hparent, ha⟩ := h
    rw [pathWord_append]
    rcases mem_upTo.mp hx with hx | ⟨-, rfl⟩ | ⟨m, hm, v, -, rfl⟩
    · rw [full, append_assoc]
      exact ih hparent hx _
    · exact lt_append_cons
    · -- an earlier child has a smaller letter
      obtain ⟨j, hj, hget⟩ := mem_take_iff_getElem.mp hm
      obtain ⟨hlt, hidx⟩ := List.getElem_of_getElem? ha
      have hletter := pairwise_iff_getElem.mp (D.ascending a.parent) j a.idx (by omega) hlt
        (by omega)
      rw [hget, hidx] at hletter
      exact append_cons_lt hletter

/-- What is behind the subtree of a path is greater. -/
theorem lt_of_mem_after (h : Leads D root anc s) (hx : x ∈ after D anc) (r : List Nat) :
    pathWord D anc ++ r < x := by
  induction anc generalizing s r with
  | nil => cases hx
  | cons a anc ih =>
    obtain ⟨hparent, ha⟩ := h
    rw [pathWord_append]
    rcases mem_rest.mp hx with ⟨m, hm, v, -, rfl⟩ | hx
    · obtain ⟨j, hj, hget⟩ := mem_drop_iff_getElem.mp hm
      obtain ⟨hlt, hidx⟩ := List.getElem_of_getElem? ha
      have hletter := pairwise_iff_getElem.mp (D.ascending a.parent) a.idx (a.idx + 1 + j)
        hlt (by omega) (by omega)
      rw [hidx, hget] at hletter
      exact append_cons_lt hletter
    · rw [full, append_assoc]
      exact ih hparent hx _

/-- The words that begin with a path are those of the state at its end. -/
theorem mem_words_path (hacyclic : D.Acyclic) (h : Leads D root anc s) {r : List Nat} :
    pathWord D anc ++ r ∈ D.words root ↔ r ∈ D.words s := by
  have hmap := hacyclic.map_words (pathWord D anc) s
  rw [words_split hacyclic h, rest, drop_zero, full, ← append_assoc (D.own _ _), ← hmap,
    mem_append, mem_append, mem_map]
  constructor
  · rintro (hr | ⟨y, hy, heq⟩ | hr)
    · exact absurd (lt_of_mem_before h hr r) (lt_irrefl _)
    · rwa [← append_cancel_left heq]
    · exact absurd (lt_of_mem_after h hr r) (lt_irrefl _)
  · exact fun hr => .inr (.inl ⟨r, hr, rfl⟩)

end Zpath
