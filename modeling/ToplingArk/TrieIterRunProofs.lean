import ToplingArk.TrieIterProofs

/-! # The iterator of a nested LOUDS trie — climbing and descending

    Wherever the iterator stands, its stack is the path to a terminal state and its word is the
    string of that state.  The strings behind the state and those before it are read off the
    path; a climb drops the layers from which nothing is left, and a descent ends at the
    first or the last string below a child. -/

namespace NestLouds

open BitCount LevelTree Patricia Zpath WordCursor List Option Nat

variable {t : Trie} {room : IterRoom} {P : PTree} {c : Nat} {word : List Nat}

/-! ## Paths in the tree -/

variable {i s : Nat} {anc : List Anc} {a : Anc}

theorem length_moves (hs : s < P.size) : (P.zdfa.moves s).length = P.first (s + 1) - P.first s := by
  show (P.moves s).length = _
  rw [moves_eq hs, length_map, length_range']

/-- Transition `i` leads to child `i`. -/
theorem moves_get (hs : s < P.size) (hi : i < P.first (s + 1) - P.first s) :
    (P.zdfa.moves s)[i]? = some (P.letter (P.first s + i), P.first s + i) := by
  show (P.moves s)[i]? = _
  rw [moves_eq hs, getElem?_map, getElem?_range' hi, one_mul]
  rfl

/-- A child on a path is told by its index. -/
theorem child_eq {p : Nat} (h : (P.zdfa.moves p)[i]? = some (c, s)) :
    p < P.size ∧ i < P.first (p + 1) - P.first p ∧ s = P.first p + i ∧ c = P.letter s := by
  have hs := (mem_moves.mp (mem_of_getElem? h)).1
  have hi := (List.getElem_of_getElem? h).1
  rw [length_moves hs] at hi
  rw [moves_get hs hi] at h
  obtain ⟨rfl, rfl⟩ := Prod.mk.inj (some.inj h)
  exact ⟨hs, hi, rfl, rfl⟩

/-- One step further down. -/
theorem leads_child (h : Leads P.zdfa 0 anc s) (hs : s < P.size)
    (hi : i < P.first (s + 1) - P.first s) :
    Leads P.zdfa 0 (⟨s, i, P.letter (P.first s + i)⟩ :: anc) (P.first s + i) :=
  ⟨h, moves_get hs hi⟩

/-- A path has a state for every level. -/
theorem leads_at (h : Leads P.zdfa 0 anc s) : P.At anc.length s := by
  induction anc generalizing s with
  | nil =>
    obtain rfl := h
    exact at_zero
  | cons a anc ih =>
    obtain ⟨hparent, ha⟩ := h
    obtain ⟨-, hi, rfl, -⟩ := child_eq ha
    exact (ih hparent).child (le_add_right _ _) (by omega)

theorem leads_lt (h : Leads P.zdfa 0 anc s) : s < P.size :=
  (leads_at h).lt_size

/-- Every state has a string: below it there is a leaf. -/
theorem exists_word (hs : s < P.size) : ∃ w, w ∈ P.zdfa.words s := by
  induction hn : P.size - s using Nat.strong_induction_on generalizing s with
  | _ n ih =>
    have hmono := first_mono (T := P.toLTree) (le_add_right s 1)
    rw [acyclic.words_eq]
    by_cases hleaf : P.first (s + 1) = P.first s
    · exact ⟨_, mem_append_left _ (mem_own.mpr ⟨P.leaves s hs hleaf, rfl⟩)⟩
    · have hlt := lt_first hs
      have hle := first_le_size (T := P.toLTree) (show s + 1 ≤ P.size from hs)
      obtain ⟨w, hw⟩ := ih (P.size - P.first s) (by omega) (show P.first s < P.size by omega) rfl
      have hm : (P.letter (P.first s), P.first s) ∈ P.zdfa.moves s :=
        mem_moves.mpr ⟨hs, le_rfl, by dsimp only; omega, rfl⟩
      exact ⟨_, mem_append_right _ (mem_below.mpr ⟨_, hm, w, hw, rfl⟩)⟩

/-- What is read on the way to a state is the beginning of a string. -/
theorem full_prefix_string (h : Leads P.zdfa 0 anc s) :
    ∃ x ∈ P.strings, full P.zdfa anc s <+: x := by
  obtain ⟨w, hw⟩ := exists_word (leads_lt h)
  obtain ⟨v, rfl⟩ := mem_words_append hw
  refine ⟨_, (mem_words_path acyclic h).mpr hw, ?_⟩
  rw [← append_assoc]
  exact prefix_append _ _

/-! ## The entries of a path -/

/-- The entry of a state that stands at child `nth`. -/
def entryOf (P : PTree) (s nth : Nat) : Entry where
  state := s
  child0 := P.first s
  nChildren := P.first (s + 1) - P.first s
  nthChild := nth
  zpathLen := (P.zdfa.zdata s).length

/-- The entries of the ancestors. -/
def stackOf (P : PTree) (anc : List Anc) : List Entry :=
  anc.map (fun a => entryOf P a.parent a.idx)

/-- The iterator at the end of a path. -/
def iterAt (P : PTree) (anc : List Anc) (s : Nat) : Iter where
  word := full P.zdfa anc s
  stack := entryOf P s 0 :: stackOf P anc
  curr := s

theorem length_stackOf (anc : List Anc) : (stackOf P anc).length = anc.length := length_map _

theorem setNth_entryOf {nth : Nat} (hi : i < P.first (s + 1) - P.first s) :
    (entryOf P s nth).setNth i = entryOf P s i := by
  have hle := degree_le (P := P) s
  unfold Entry.setNth entryOf
  rw [mod_eq_of_lt (by omega)]

theorem hasNext_entryOf (s i : Nat) :
    (entryOf P s i).hasNext = true ↔ i + 1 < P.first (s + 1) - P.first s := decide_eq_true_iff

/-- What an iterator relies on besides the trie itself: the numbers of the states and the lengths
    of the edge strings fit in the fields of an entry, and no string is longer than
    `m_max_strlen`. -/
structure Trie.Iterable (t : Trie) (P : PTree) (maxStrlen : Nat) : Prop where
  states : P.size < 2 ^ t.entryBits
  zlen : ∀ s z, s < P.size → P.zpath s = some z → z.length < 2 ^ 8
  strlen : ∀ w ∈ P.strings, w.length ≤ maxStrlen
  width : maxStrlen + 31 < 2 ^ 32

/-- Every state can be entered along its path. -/
def Enterable (t : Trie) (room : IterRoom) (P : PTree) : Prop :=
  ∀ anc s, Leads P.zdfa 0 anc s →
    t.initIterEntry room s anc.length (pathWord P.zdfa anc).length =
      some (entryOf P s 0, P.zdfa.zdata s)

section Enter

variable {maxStrlen : Nat} {layers : Layers}

/-- No field of an entry is cut. -/
theorem newEntry_eq (hiter : t.Iterable P maxStrlen) (hs : s < P.size)
    (hz : (P.zdfa.zdata s).length < 2 ^ 8) :
    t.newEntry s (P.first s) (P.first (s + 1) - P.first s) (P.zdfa.zdata s).length =
      entryOf P s 0 := by
  have hstates := hiter.states
  have hdeg := degree_le (P := P) s
  have hfirst := first_le_size (T := P.toLTree) hs.le
  unfold Trie.newEntry entryOf
  rw [mod_eq_of_lt (by omega), mod_eq_of_lt (by omega), mod_eq_of_lt (by omega), mod_eq_of_lt hz]

section

variable (h : t.Carries P) (hiter : t.Iterable P maxStrlen) (hinit : t.initForTerm = some layers)

include h hiter hinit

/-- There is room for every path and for what is read along it. -/
theorem room_of_leads (hs : Leads P.zdfa 0 anc s) :
    anc.length < (iterRoom layers maxStrlen).pileMem ∧
      (full P.zdfa anc s).length + 1 ≤ (iterRoom layers maxStrlen).wordMem := by
  have hdepth := (leads_at hs).lt_height
  obtain ⟨x, hx, hle⟩ := full_prefix_string hs
  have hlen := hle.length_le.trans (hiter.strlen x hx)
  have hwidth := hiter.width
  constructor
  · rw [(h.init hinit).1]
    show anc.length < (table P.toLTree t.termBit).length + 2
    rw [length_table]
    omega
  · show _ ≤ ((maxStrlen + 16) % 2 ^ 32 + 15) % 2 ^ 32 / 16 * 16
    omega

/-- A state can be entered if its edge string does not have less than two bytes. -/
theorem initIterEntry_long (hs : Leads P.zdfa 0 anc s)
    (hlong : ∀ z, P.zpath s = some z → 2 ≤ z.length) :
    t.initIterEntry (iterRoom layers maxStrlen) s anc.length (pathWord P.zdfa anc).length =
      some (entryOf P s 0, P.zdfa.zdata s) := by
  have hlt := leads_lt hs
  obtain ⟨hpile, hword⟩ := room_of_leads h hiter hinit hs
  rw [full, length_append] at hword
  have hz : (P.zdfa.zdata s).length < 2 ^ 8 := by
    show ((P.zpath s).getD []).length < _
    cases hzp : P.zpath s with
    | none => decide
    | some z => exact hiter.zlen s z hlt hzp
  have hentry := newEntry_eq hiter hlt hz
  unfold Trie.initIterEntry
  rw [h.childRange hlt, h.link s hlt]
  simp only [bind_eq_bind, bind_some]
  revert hword hentry
  show _ + ((P.zpath s).getD []).length + 1 ≤ _ →
    t.newEntry _ _ _ ((P.zpath s).getD []).length = _ →
    _ = some (entryOf P s 0, (P.zpath s).getD [])
  cases hzp : P.zpath s with
  | none =>
    intro hword hentry
    rw [if_neg (by decide), if_pos ⟨hpile, hword⟩]
    exact congrArg (fun e => some (e, [])) hentry
  | some z =>
    intro hword hentry
    rw [isSome_some, if_pos rfl, h.zpath s z hlt hzp, bind_some, if_pos ⟨hlong z hzp, hpile, hword⟩]
    exact congrArg (fun e => some (e, z)) hentry

/-- **EVERY STATE CAN BE ENTERED** if no edge string has less than two bytes. -/
theorem enterable (hlong : ∀ s z, s < P.size → P.zpath s = some z → 2 ≤ z.length) :
    Enterable t (iterRoom layers maxStrlen) P :=
  fun _ s hs => initIterEntry_long h hiter hinit hs (fun z hz => hlong s z (leads_lt hs) hz)

end

/-- An edge string with less than two bytes cannot be entered at all. -/
theorem initIterEntry_short (h : t.Carries P) {z : List Nat} (hs : s < P.size)
    (hz : P.zpath s = some z) (hshort : z.length < 2) (depth wp : Nat) :
    t.initIterEntry room s depth wp = none := by
  unfold Trie.initIterEntry
  rw [h.childRange hs, h.link s hs, hz]
  simp only [bind_eq_bind, bind_some]
  rw [isSome_some, if_pos rfl, h.zpath s z hs hz, bind_some, if_neg (fun hlong => by omega)]

end Enter

/-! ## Descending -/

/-- The strings still to come, and an iterator at the first of them. -/
def Reaches (P : PTree) (V : List (List Nat)) : Option Iter → Prop
  | none => V = []
  | some it => ∃ anc s, Leads P.zdfa 0 anc s ∧ P.term s = true ∧ it = iterAt P anc s ∧
      V = full P.zdfa anc s :: rest P.zdfa anc s 0

/-- The strings up to here, and an iterator at the last of them. -/
def ReachesBack (P : PTree) (U : List (List Nat)) : Option Iter → Prop
  | none => U = []
  | some it => ∃ anc s, Leads P.zdfa 0 anc s ∧ P.term s = true ∧ it = iterAt P anc s ∧
      U = before P.zdfa anc ++ [full P.zdfa anc s]

/-- Every state on a path can be entered. -/
theorem enter (henter : Enterable t room P) (hs : Leads P.zdfa 0 anc s) :
    t.initIterEntry room s (stackOf P anc).length (pathWord P.zdfa anc).length =
      some (entryOf P s 0, P.zdfa.zdata s) := by
  rw [length_stackOf]
  exact henter anc s hs

/-- A state that is not terminal has a child. -/
theorem kids_of_not_term (hs : s < P.size) (hterm : P.term s ≠ true) :
    0 < P.first (s + 1) - P.first s := by
  have hmono := first_mono (T := P.toLTree) (le_add_right s 1)
  by_contra hleaf
  exact hterm (P.leaves s hs (by omega))

section Descend

variable (h : t.Carries P) (henter : Enterable t room P) {fuel : Nat}

include h henter

/-- `append_lex_min_suffix` ends at the first string of the state. -/
theorem appendLexMinSuffix_spec (hs : Leads P.zdfa 0 anc s) (hfuel : P.size - s ≤ fuel) :
    ∃ it, t.appendLexMinSuffix room fuel s (stackOf P anc) (pathWord P.zdfa anc) = some it ∧
      Reaches P (P.zdfa.own s (full P.zdfa anc s) ++ rest P.zdfa anc s 0) (some it) := by
  induction fuel generalizing anc s with
  | zero =>
    have hlt := leads_lt hs
    omega
  | succ fuel ih =>
    have hlt := leads_lt hs
    rw [Trie.appendLexMinSuffix, enter henter hs]
    simp only [bind_eq_bind]
    rw [h.terms s hlt]
    simp only [bind_some]
    show ∃ it, _ ∧ Reaches P ((if P.term s = true then _ else _) ++ _) _
    by_cases hterm : P.term s = true
    · rw [if_pos hterm, if_pos hterm]
      exact ⟨iterAt P anc s, rfl, anc, s, hs, hterm, rfl, rfl⟩
    -- down to the first child
    have hkids := kids_of_not_term hlt hterm
    have hchild := leads_child hs hlt hkids
    obtain ⟨it, hit, hreach⟩ := ih hchild (by have := lt_first hlt; omega)
    rw [← rest_take acyclic anc (moves_get hlt hkids)] at hreach
    rw [if_neg hterm, if_neg hterm]
    refine ⟨it, (if_neg hkids.ne').trans ?_, hreach⟩
    show (t.getFirstChar (P.first s) (P.first _ - P.first s)).bind _ = _
    rw [getFirstChar_spec h hlt (by omega)]
    exact hit

/-- `append_lex_max_suffix` ends at the last string of the state. -/
theorem appendLexMaxSuffix_spec (hs : Leads P.zdfa 0 anc s) (hfuel : P.size - s ≤ fuel) :
    ∃ it, t.appendLexMaxSuffix room fuel s (stackOf P anc) (pathWord P.zdfa anc) = some it ∧
      ReachesBack P (upTo P.zdfa anc s (P.zdfa.moves s).length) (some it) := by
  induction fuel generalizing anc s with
  | zero =>
    have hlt := leads_lt hs
    omega
  | succ fuel ih =>
    have hlt := leads_lt hs
    have hmono := first_mono (T := P.toLTree) (le_add_right s 1)
    rw [Trie.appendLexMaxSuffix, enter henter hs, length_moves hlt]
    by_cases hleaf : P.first (s + 1) - P.first s = 0
    · have hterm := P.leaves s hlt (by omega)
      have hup : upTo P.zdfa anc s 0 = before P.zdfa anc ++ [full P.zdfa anc s] := by
        show before P.zdfa anc ++ (if P.term s = true then _ else _) ++ [] = _
        rw [if_pos hterm, append_nil]
      rw [hleaf, hup]
      refine ⟨iterAt P anc s, if_pos hleaf, anc, s, hs, hterm, rfl, rfl⟩
    -- down to the last child
    obtain ⟨i, hi⟩ := exists_eq_succ_of_ne_zero hleaf
    have hkid : i < P.first (s + 1) - P.first s := by omega
    have hchild := leads_child hs hlt hkid
    obtain ⟨it, hit, hreach⟩ := ih hchild (by have := lt_first hlt; omega)
    rw [← upTo_take acyclic anc (moves_get hlt hkid)] at hreach
    rw [hi]
    refine ⟨it, ?_, hreach⟩
    have hchar := getNthChar_spec h hlt (c := P.first s + i) (le_add_right _ _) (by omega)
    rw [Nat.add_sub_cancel_left] at hchar
    refine (if_neg hleaf).trans ?_
    show (t.getNthChar (P.first s) (P.first _ - P.first s) (P.first _ - P.first s - 1)).bind _ = _
    rw [show P.first (s + 1) - P.first s - 1 = i by omega, hchar]
    show t.appendLexMaxSuffix room fuel (P.first s + (P.first _ - P.first s - 1)) ((entryOf P s
      0).setNth (P.first _ - P.first s - 1) :: stackOf P anc) _ = _
    rw [show P.first (s + 1) - P.first s - 1 = i by omega, setNth_entryOf hkid]
    exact hit

/-- To the first string from a child on. -/
theorem lexMin_child (hs : Leads P.zdfa 0 anc s) (hi : i < P.first (s + 1) - P.first s) :
    ∃ it, t.lexMin room (P.first s + i) (entryOf P s i :: stackOf P anc)
        (full P.zdfa anc s ++ [P.letter (P.first s + i)]) = some it ∧
      Reaches P (rest P.zdfa anc s i) (some it) := by
  have hlt := leads_lt hs
  rw [rest_take acyclic anc (moves_get hlt hi)]
  refine appendLexMinSuffix_spec h henter (leads_child hs hlt hi) ?_
  rw [h.term]
  exact sub_le _ _

/-- To the last string up to a child. -/
theorem lexMax_child (hs : Leads P.zdfa 0 anc s) (hi : i < P.first (s + 1) - P.first s) :
    ∃ it, t.lexMax room (P.first s + i) (entryOf P s i :: stackOf P anc)
        (full P.zdfa anc s ++ [P.letter (P.first s + i)]) = some it ∧
      ReachesBack P (upTo P.zdfa anc s (i + 1)) (some it) := by
  have hlt := leads_lt hs
  rw [upTo_take acyclic anc (moves_get hlt hi)]
  refine appendLexMaxSuffix_spec h henter (leads_child hs hlt hi) ?_
  rw [h.term]
  exact sub_le _ _

end Descend

/-! ## Climbing -/

theorem length_full (anc : List Anc) (s : Nat) :
    (full P.zdfa anc s).length = (pathWord P.zdfa anc).length + (P.zdfa.zdata s).length :=
  length_append

theorem length_pathWord_cons (a : Anc) (anc : List Anc) :
    (pathWord P.zdfa (a :: anc)).length = (full P.zdfa anc a.parent).length + 1 :=
  length_append

/-- An entry takes its letter and its edge string. -/
theorem length_full_cons (a : Anc) (anc : List Anc) (s i : Nat) :
    (full P.zdfa (a :: anc) s).length =
      (full P.zdfa anc a.parent).length + ((entryOf P s i).zpathLen + 1) := by
  rw [length_full, length_pathWord_cons, add_assoc, Nat.add_comm 1]
  rfl

/-- The word up to a letter, and the letter. -/
theorem split_at_letter {pre : List Nat} (h : pre ++ [c] <+: word) :
    word.take pre.length = pre ∧ word[pre.length]? = some c := by
  obtain ⟨v, rfl⟩ := h
  rw [append_assoc]
  refine ⟨take_left, ?_⟩
  rw [getElem?_append_right le_rfl, Nat.sub_self]
  rfl

/-- When the next child does not exist, nothing is left of the parent. -/
theorem after_cons_end (hp : a.parent < P.size)
    (hlast : ¬ a.idx + 1 < P.first (a.parent + 1) - P.first a.parent) :
    after P.zdfa (a :: anc) = after P.zdfa anc := by
  refine rest_end (s := a.parent) ?_
  rw [length_moves hp]
  omega

theorem prefix_pathWord_cons (a : Anc) (anc : List Anc) :
    pathWord P.zdfa anc <+: pathWord P.zdfa (a :: anc) := by
  rw [pathWord, append_assoc]
  exact prefix_append _ _

/-- The loop of `incr` ends outside if nothing is left of the strings behind a child, else at a
    state with a next child, from which these strings go on. -/
theorem climbNext_spec {anc : List Anc} {s i : Nat} (hs : Leads P.zdfa 0 anc s)
    (hpath : pathWord P.zdfa anc <+: word) (hletter : i + 1 < P.first (s + 1) - P.first s →
      full P.zdfa anc s ++ [P.letter (P.first s + i)] <+: word) :
    (Trie.climbNext (entryOf P s i :: stackOf P anc) (full P.zdfa anc s).length = some none ∧
      rest P.zdfa anc s (i + 1) = []) ∨
    ∃ anc' p j, Leads P.zdfa 0 anc' p ∧ j + 1 < P.first (p + 1) - P.first p ∧
      Trie.climbNext (entryOf P s i :: stackOf P anc) (full P.zdfa anc s).length =
        some (some (entryOf P p j, stackOf P anc', (full P.zdfa anc' p).length)) ∧
      rest P.zdfa anc s (i + 1) = rest P.zdfa anc' p (j + 1) ∧
      full P.zdfa anc' p ++ [P.letter (P.first p + j)] <+: word := by
  by_cases hnext : i + 1 < P.first (s + 1) - P.first s
  · exact .inr ⟨anc, s, i, hs, hnext, if_pos ((hasNext_entryOf _ _).mpr hnext), rfl, hletter hnext⟩
  have hrest : rest P.zdfa anc s (i + 1) = after P.zdfa anc :=
    rest_end (by rw [length_moves (leads_lt hs)]; omega)
  rw [hrest, Trie.climbNext, if_neg ((hasNext_entryOf _ _).not.mpr hnext)]
  cases anc with
  | nil => exact .inl ⟨if_pos rfl, rfl⟩
  | cons a anc =>
    -- the layer is left
    obtain ⟨hparent, ha⟩ := hs
    obtain ⟨-, -, rfl, hch⟩ := child_eq ha
    rw [length_full_cons a anc _ i, if_neg (by rw [length_stackOf]; exact succ_ne_zero _),
      if_pos (Nat.le_add_left _ _), Nat.add_sub_cancel]
    exact climbNext_spec hparent ((prefix_pathWord_cons a anc).trans hpath) (fun _ => hch ▸ hpath)

section Climb

variable (h : t.Carries P) (henter : Enterable t room P)

include h henter

/-- `RewindStackForNext` goes to the first string behind the path. -/
theorem rewindStackForNext_spec (hs : Leads P.zdfa 0 anc s) :
    ∃ r, t.rewindStackForNext room (stackOf P anc) (pathWord P.zdfa anc) = some r ∧
      Reaches P (after P.zdfa anc) r := by
  induction anc generalizing s with
  | nil => exact ⟨none, rfl, rfl⟩
  | cons a anc ih =>
    obtain ⟨hparent, ha⟩ := hs
    obtain ⟨hp, hi, -, -⟩ := child_eq ha
    have hlen := length_pathWord_cons (P := P) a anc
    by_cases hnext : a.idx + 1 < P.first (a.parent + 1) - P.first a.parent
    · obtain ⟨it, hit, hreach⟩ := lexMin_child h henter hparent hnext
      have hchar := getNthChar_spec h hp (c := P.first a.parent + (a.idx + 1))
        (le_add_right _ _) (by omega)
      rw [Nat.add_sub_cancel_left] at hchar
      refine ⟨some it, (if_pos ((hasNext_entryOf _ _).mpr hnext)).trans ?_, hreach⟩
      show (t.getNthChar (P.first a.parent) (P.first _ - P.first a.parent) (a.idx + 1)).bind _ = _
      rw [hchar, bind_some, if_neg (by omega)]
      show (t.lexMin room (P.first a.parent + (a.idx + 1))
        ((entryOf P a.parent a.idx).setNth (a.idx + 1) :: stackOf P anc)
        ((full P.zdfa anc a.parent ++ [a.ch]).take _ ++ _)).bind _ = _
      rw [setNth_entryOf hnext, hlen, Nat.add_sub_cancel, take_left, hit]
      rfl
    obtain ⟨r, hr, hreach⟩ := ih hparent
    rw [after_cons_end hp hnext]
    refine ⟨r, (if_neg ((hasNext_entryOf _ _).not.mpr hnext)).trans ?_, hreach⟩
    rw [length_full] at hlen
    refine (if_pos (show (P.zdfa.zdata a.parent).length + 1 ≤ _ by omega)).trans ?_
    show t.rewindStackForNext room _ ((pathWord P.zdfa _).take ((pathWord P.zdfa _).length -
      ((P.zdfa.zdata a.parent).length + 1))) = _
    rw [hlen, add_assoc, Nat.add_sub_cancel, ← prefix_iff_eq_take.mp (prefix_pathWord_cons a anc)]
    exact hr

/-- **`incr` GOES TO THE FIRST STRING BEHIND**, or nowhere. -/
theorem incr_spec (hs : Leads P.zdfa 0 anc s) :
    ∃ r, t.incr room (iterAt P anc s) = some (Trie.land (iterAt P anc s) r) ∧
      Reaches P (rest P.zdfa anc s 0) r := by
  have hlt := leads_lt hs
  show ∃ r, (if P.first _ - P.first s ≠ 0 then _ else _ : Option _) = _ ∧ _
  -- a leaf goes up to the next child of an ancestor
  by_cases hkids : P.first (s + 1) - P.first s = 0
  · rw [if_neg (not_not_intro hkids)]
    have hleaf : rest P.zdfa anc s 0 = after P.zdfa anc := by
      refine rest_end ?_
      rw [length_moves hlt, hkids]
    have hend : rest P.zdfa anc s (0 + 1) = after P.zdfa anc :=
      rest_end (by rw [length_moves hlt]; omega)
    rw [hleaf, ← hend]
    show ∃ r, (Trie.climbNext _ (full P.zdfa _ s).length).bind _ = _ ∧ _
    rcases climbNext_spec (i := 0) hs (prefix_append _ (P.zdfa.zdata s)) (by omega) with
      ⟨hclimb, hnone⟩ | ⟨anc', p, i, hlead, hkid, hclimb, hrest, hpre⟩
    · rw [hclimb]
      exact ⟨none, rfl, hnone⟩
    obtain ⟨it, hit, hreach⟩ := lexMin_child h henter hlead hkid
    obtain ⟨htake, hget⟩ := split_at_letter hpre
    have hplace := place_letter_succ (P := P) (s := p) (c := P.first p + i)
      (le_add_right _ _) (by omega)
    have hchar := getNthCharNext_spec h (leads_lt hlead) (c := P.first p + (i + 1))
      (le_add_right _ _) (by omega) (P.byte (P.first p + i)) hplace
    rw [Nat.add_sub_cancel_left] at hchar
    refine ⟨some it, ?_, hrest ▸ hreach⟩
    rw [hclimb]
    show ((pathWord P.zdfa _ ++ P.zdfa.zdata s)[(full P.zdfa anc' p).length]?).bind _ = _
    rw [hget]
    show (t.getNthCharNext (P.first p) (P.first _ - P.first p) (i + 1) _).bind _ = _
    rw [hchar]
    show (t.lexMin room (P.first p + (i + 1)) ((entryOf P p i).setNth (i + 1) :: stackOf P anc')
      ((pathWord P.zdfa _ ++ P.zdfa.zdata s).take _ ++ _)).bind _ = _
    rw [setNth_entryOf hkid, htake, hit]
    rfl
  -- otherwise down along the first children
  rw [if_pos hkids]
  obtain ⟨it, hit, hreach⟩ := lexMin_child h henter hs (pos_of_ne_zero hkids)
  refine ⟨some it, ?_, hreach⟩
  show (t.getFirstChar (P.first s) (P.first _ - P.first s)).bind _ = _
  rw [getFirstChar_spec h hlt (by omega)]
  show (t.lexMin room (P.first s + 0) _ (full P.zdfa anc s ++ [P.letter (P.first s + 0)])).bind _ =
    _
  rw [hit]
  rfl

end Climb

/-- Where the loop of `decr` can end, with the strings `U` before the path whose letters are
    `word`. -/
def Backs (P : PTree) (U : List (List Nat)) (word : List Nat) : Trie.Back → Prop
  | .outside => U = []
  | .here e stack wp => ∃ anc p, Leads P.zdfa 0 anc p ∧ P.term p = true ∧ e = entryOf P p 0 ∧
      stack = stackOf P anc ∧ wp = (full P.zdfa anc p).length ∧
      U = before P.zdfa anc ++ [full P.zdfa anc p] ∧ full P.zdfa anc p <+: word
  | .child e stack wp => ∃ anc p i, Leads P.zdfa 0 anc p ∧ i + 1 < P.first (p + 1) - P.first p ∧
      e = entryOf P p (i + 1) ∧ stack = stackOf P anc ∧ wp = (full P.zdfa anc p).length ∧
      U = upTo P.zdfa anc p (i + 1) ∧
      full P.zdfa anc p ++ [P.letter (P.first p + (i + 1))] <+: word

theorem Backs.mono {U : List (List Nat)} {word' : List Nat} {back : Trie.Back}
    (h : Backs P U word back) (hle : word <+: word') : Backs P U word' back := by
  cases back with
  | outside => exact h
  | here e stack wp =>
    obtain ⟨anc, p, h1, h2, h3, h4, h5, h6, h7⟩ := h
    exact ⟨anc, p, h1, h2, h3, h4, h5, h6, h7.trans hle⟩
  | child e stack wp =>
    obtain ⟨anc, p, i, h1, h2, h3, h4, h5, h6, h7⟩ := h
    exact ⟨anc, p, i, h1, h2, h3, h4, h5, h6, h7.trans hle⟩

section ClimbBack

variable (h : t.Carries P)

include h

/-- The loop of `decr` stops at a state, or the child is the first one and the state has no string
    of its own. -/
theorem climbPrev_stop (hs : Leads P.zdfa 0 (a :: anc) s) :
    (∃ back, t.climbPrev (stackOf P (a :: anc)) (full P.zdfa anc a.parent).length = some back ∧
      Backs P (before P.zdfa (a :: anc)) (pathWord P.zdfa (a :: anc)) back) ∨
    (a.idx = 0 ∧ P.term a.parent = false ∧ before P.zdfa (a :: anc) = before P.zdfa anc) := by
  obtain ⟨hparent, ha⟩ := hs
  obtain ⟨hp, hi, rfl, hch⟩ := child_eq ha
  rcases Nat.eq_zero_or_pos a.idx with hzero | hpos
  · have hbefore : before P.zdfa (a :: anc) =
        before P.zdfa anc ++ P.zdfa.own a.parent (full P.zdfa anc a.parent) := by
      show upTo P.zdfa anc a.parent a.idx = _
      rw [hzero]
      exact append_nil _
    have hown : P.zdfa.own a.parent (full P.zdfa anc a.parent) =
        if P.term a.parent = true then [full P.zdfa anc a.parent] else [] := rfl
    cases hterm : P.term a.parent with
    | false =>
      rw [hown, hterm, if_neg (by decide), append_nil] at hbefore
      exact .inr ⟨hzero, rfl, hbefore⟩
    | true =>
      rw [hown, hterm] at hbefore
      refine .inl ⟨.here (entryOf P a.parent a.idx) (stackOf P anc) _, ?_, anc, a.parent, hparent,
        hterm, congrArg _ hzero, rfl, rfl, hbefore, prefix_append _ _⟩
      refine (if_pos hzero).trans ?_
      show (t.isTerm.bits[a.parent]?).bind _ = _
      rw [h.terms _ hp, hterm]
      rfl
  · obtain ⟨i, hidx⟩ := exists_eq_succ_of_ne_zero hpos.ne'
    refine .inl ⟨.child (entryOf P a.parent a.idx) (stackOf P anc) _, if_neg hpos.ne',
      anc, a.parent, i, hparent, by omega, congrArg _ hidx, rfl, rfl, ?_, ?_⟩
    · show upTo P.zdfa anc a.parent a.idx = _
      rw [hidx]
    · rw [show i + 1 = a.idx from hidx.symm, ← hch]
      exact prefix_rfl

/-- **THE LOOP OF `decr`.** -/
theorem climbPrev_spec {a : Anc} {anc : List Anc} {s : Nat} (hs : Leads P.zdfa 0 (a :: anc) s) :
    ∃ back, t.climbPrev (stackOf P (a :: anc)) (full P.zdfa anc a.parent).length = some back ∧
      Backs P (before P.zdfa (a :: anc)) (pathWord P.zdfa (a :: anc)) back := by
  rcases climbPrev_stop h hs with hstop | ⟨hzero, hterm, hbefore⟩
  · exact hstop
  obtain ⟨hparent, ha⟩ := hs
  have hterms := h.terms _ (child_eq ha).1
  rw [hterm] at hterms
  have hclimb : t.climbPrev (stackOf P (a :: anc)) (full P.zdfa anc a.parent).length =
      (t.isTerm.bits[a.parent]?).bind _ := if_pos hzero
  rw [hclimb, hterms, hbefore]
  cases anc with
  | nil => exact ⟨.outside, rfl, rfl⟩
  | cons b anc =>
    obtain ⟨back, hback, hends⟩ := climbPrev_spec hparent
    refine ⟨back, ?_, hends.mono (prefix_pathWord_cons _ _)⟩
    rw [length_full_cons b anc a.parent a.idx]
    refine (if_pos (Nat.le_add_left _ _)).trans ?_
    rw [Nat.add_sub_cancel]
    exact hback

/-- **`decr` GOES TO THE LAST STRING BEFORE**, or nowhere. -/
theorem decr_spec (henter : Enterable t room P) (hs : Leads P.zdfa 0 anc s) :
    ∃ r, t.decr room (iterAt P anc s) = some (Trie.land (iterAt P anc s) r) ∧
      ReachesBack P (before P.zdfa anc) r := by
  cases anc with
  | nil => exact ⟨none, rfl, rfl⟩
  | cons a anc =>
    obtain ⟨back, hback, hends⟩ := climbPrev_spec h hs
    have hlen := length_full_cons (P := P) a anc s 0
    replace hends := hends.mono (prefix_append _ (P.zdfa.zdata s))
    have hdecr : t.decr room (iterAt P (a :: anc) s) =
        t.decrFrom room (iterAt P (a :: anc) s) back := by
      refine (if_pos (show (entryOf P s 0).zpathLen + 1 ≤ _ from
        hlen.ge.trans' (by omega))).trans ?_
      show (t.climbPrev _ ((full P.zdfa _ s).length - ((entryOf P s 0).zpathLen + 1))).bind _ = _
      rw [hlen, Nat.add_sub_cancel, hback]
      rfl
    rw [hdecr]
    -- before the first string, on an ancestor, or down along the last children
    cases back with
    | outside => exact ⟨none, rfl, hends⟩
    | here e stack wp =>
      obtain ⟨anc', p, hlead, hterm, rfl, rfl, rfl, hU, hpre⟩ := hends
      refine ⟨some (iterAt P anc' p), ?_, anc', p, hlead, hterm, rfl, hU⟩
      show some (Iter.mk ((pathWord P.zdfa _ ++ P.zdfa.zdata s).take _) _ _, true) = _
      rw [← prefix_iff_eq_take.mp hpre]
      rfl
    | child e stack wp =>
      obtain ⟨anc', p, i, hlead, hkid, rfl, rfl, rfl, hU, hpre⟩ := hends
      obtain ⟨it, hit, hreach⟩ := lexMax_child h henter hlead (show i < _ by omega)
      obtain ⟨htake, hget⟩ := split_at_letter hpre
      have hchar := getNthCharPrev_spec h (leads_lt hlead) (c := P.first p + i)
        (le_add_right _ _) (by omega)
      rw [Nat.add_sub_cancel_left, add_assoc] at hchar
      refine ⟨some it, ?_, hU ▸ hreach⟩
      show ((pathWord P.zdfa _ ++ P.zdfa.zdata s)[(full P.zdfa anc' p).length]?).bind _ = _
      rw [hget]
      show (t.getNthCharPrev (P.first p) (P.first _ - P.first p) i _).bind _ = _
      rw [hchar]
      show (t.lexMax room (P.first p + i) ((entryOf P p _).setNth i :: stackOf P anc') ((pathWord
        P.zdfa _ ++ P.zdfa.zdata s).take _ ++ _)).bind _ = _
      rw [setNth_entryOf (by omega), htake, hit]
      rfl

/-- **`seek_end` GOES TO THE LAST STRING.** -/
theorem seekEnd_spec (henter : Enterable t room P) (it : Iter) :
    ∃ it', t.seekEnd room it = some (it', true) ∧ ReachesBack P P.strings (some it') := by
  have hroot : Leads P.zdfa 0 [] 0 := rfl
  have hlink := h.link 0 size_pos
  obtain ⟨it', hit, hreach⟩ := appendLexMaxSuffix_spec h henter hroot
    (show P.size - 0 ≤ t.isTerm.bits.length by rw [h.term]; exact le_rfl)
  have hall := words_upTo acyclic hroot (P.zdfa.moves 0).length
  rw [rest_end le_rfl] at hall
  have hstrings : P.strings = upTo P.zdfa [] 0 (P.zdfa.moves 0).length :=
    hall.trans (append_nil _)
  refine ⟨it', ?_, hstrings ▸ hreach⟩
  unfold Trie.seekEnd
  rw [if_pos (List.getElem_of_getElem? hlink).1]
  show (t.lexMax room 0 (stackOf P []) (pathWord P.zdfa [])).bind _ = _
  unfold Trie.lexMax
  rw [hit]
  rfl

end ClimbBack

end NestLouds
