import ToplingArk.LevelTreeProofs
import ToplingArk.ZpathDfaProofs

/-! # The strings of a tree with labelled edges

    A tree in level order in which every node but the root has an edge string: a letter, by
    which its parent tells its children apart, and possibly more.  Some nodes are terminal,
    the leaves among them, and the strings along the paths to these are what the tree stands
    for.  In depth-first order the terminal nodes are in the order of their strings. -/

namespace Patricia

open LevelTree Zpath Automata BitCount List

/-- The letters of the children of a node ascend, all letters are bytes, and every leaf is
    terminal; the root has no edge string. -/
structure PTree extends LTree where
  letter : Nat → Nat
  zpath : Nat → Option (List Nat)
  term : Nat → Bool
  ascending : ∀ s c, toLTree.first s ≤ c → c + 1 < toLTree.first (s + 1) → letter c < letter (c + 1)
  byte : ∀ c, letter c < 256
  zbytes : ∀ c z, zpath c = some z → ∀ b ∈ z, b < 256
  leaves : ∀ s, s < toLTree.size → toLTree.first (s + 1) = toLTree.first s → term s = true
  root : zpath 0 = none

theorem noZpath_bytes (_ : Nat) (z : List Nat) (h : none = some z) : ∀ b ∈ z, b < 256 := nomatch h

theorem noZpath_root : (none : Option (List Nat)) = none := rfl

variable (P : PTree) {r x : Nat}

/-- The edges to the children of a node. -/
def PTree.moves (s : Nat) : List (Nat × Nat) :=
  if s < P.size then
    (range' (P.first s) (P.first (s + 1) - P.first s)).map (fun c => (P.letter c, c))
  else []

variable {P}

variable {c l s v : Nat}

/-- The transitions of a node, in the order of its children. -/
theorem moves_eq (hs : s < P.size) :
    P.moves s = (range' (P.first s) (P.first (s + 1) - P.first s)).map
      (fun c => (P.letter c, c)) := if_pos hs

/-- A transition leads to a child by its letter. -/
theorem mem_moves {m : Nat × Nat} :
    m ∈ P.moves s ↔ s < P.size ∧ P.first s ≤ m.2 ∧ m.2 < P.first (s + 1) ∧ m.1 = P.letter m.2 := by
  unfold PTree.moves
  split
  · rename_i hs
    simp only [mem_map, mem_range'_1]
    constructor
    · rintro ⟨c, ⟨h1, h2⟩, rfl⟩
      exact ⟨hs, h1, by dsimp only; omega, rfl⟩
    · rintro ⟨-, h1, h2, h3⟩
      exact ⟨m.2, ⟨h1, by omega⟩, by rw [← h3]⟩
  · rename_i hs
    simp [hs]

/-- The letters of the children ascend, and not only from one to the next. -/
theorem letter_lt {d : Nat} (h1 : P.first s ≤ c) (h2 : c < d) (h3 : d < P.first (s + 1)) :
    P.letter c < P.letter d := by
  obtain ⟨e, rfl⟩ := Nat.exists_eq_add_of_lt h2
  clear h2
  induction e with
  | zero => exact P.ascending s c h1 h3
  | succ e ih =>
    have hstep := P.ascending s (c + e + 1) (by omega) h3
    exact (ih (by omega)).trans hstep

/-- The letters of the children ascend. -/
theorem moves_ascending (s : Nat) : Ascending (P.moves s) := by
  unfold PTree.moves
  split
  · refine pairwise_map.mpr (List.Pairwise.imp_of_mem ?_ pairwise_lt_range')
    intro c d hc hd hlt
    rw [mem_range'_1] at hc hd
    exact letter_lt hc.1 hlt (by omega)
  · exact List.Pairwise.nil

theorem moves_targets (s : Nat) : ∀ m ∈ P.moves s, m.2 < P.size := by
  intro m hm
  obtain ⟨hs, -, h2, -⟩ := mem_moves.mp hm
  exact h2.trans_le (first_le_size hs)

variable (P) in
/-- The tree as an automaton with compressed paths. -/
def PTree.zdfa : ZDfa where
  states := P.size
  moves := P.moves
  term := P.term
  zpath := P.zpath
  ascending := moves_ascending
  targets := moves_targets

variable (P) in
/-- The tree stands for the string. -/
def PTree.accepts (w : List Nat) : Bool := P.zdfa.accepts 0 w

variable (P) in
/-- The strings of the tree in order. -/
def PTree.strings : List (List Nat) := P.zdfa.words 0

/-- Children come behind their parent. -/
theorem edge_lt {t : Nat} (h : P.zdfa.Edge s t) : s < t := by
  obtain ⟨c, hc⟩ := h
  obtain ⟨hs, h1, -, -⟩ := mem_moves.mp hc
  exact (lt_first hs).trans_le h1

/-- A tree has no cycle. -/
theorem acyclic : P.zdfa.Acyclic := by
  have hlt : ∀ s t, Relation.TransGen P.zdfa.Edge s t → s < t := by
    intro s t h
    induction h with
    | single h => exact edge_lt h
    | tail _ h ih => exact ih.trans (edge_lt h)
  exact fun s h => Nat.lt_irrefl s (hlt s s h)

/-- The strings are what the tree accepts. -/
theorem mem_strings (w : List Nat) : w ∈ P.strings ↔ P.accepts w = true :=
  acyclic.mem_words 0 w

/-- The strings are in order. -/
theorem strings_sorted : P.strings.Pairwise (· < ·) := acyclic.words_sorted 0

/-- The sorted list of what the tree stands for is the list of its strings. -/
theorem strings_eq {S : List (List Nat)} (hsorted : S.Pairwise (· < ·))
    (hmem : ∀ w, w ∈ S ↔ P.accepts w = true) : P.strings = S :=
  strings_sorted.eq_of_mem_iff hsorted (fun w => by rw [mem_strings, hmem])

/-! ## The string of a node -/

variable (P) in
/-- The string along the path to a node, through so many edges at most. -/
def PTree.wordUpTo : Nat → Nat → List Nat
  | 0, _ => []
  | k + 1, s =>
    if s = 0 then [] else PTree.wordUpTo k (P.parent s) ++ P.letter s :: P.zdfa.zdata s

variable (P) in
/-- The string along the path to a node: a path has no more edges than the number of its end. -/
def PTree.word (s : Nat) : List Nat := P.wordUpTo s s

theorem wordUpTo_eq {k : Nat} (hs : s < P.size) (hk : s ≤ k) : P.wordUpTo k s = P.word s := by
  induction s using Nat.strong_induction_on generalizing k with
  | _ s ih =>
    cases s with
    | zero =>
      cases k with
      | zero => rfl
      | succ k => exact if_pos rfl
    | succ s =>
      obtain ⟨k, rfl⟩ : ∃ k', k = k' + 1 := ⟨k - 1, by omega⟩
      have hlt := parent_lt_self (T := P.toLTree) (Nat.succ_pos s) hs
      unfold PTree.word
      rw [PTree.wordUpTo, PTree.wordUpTo, if_neg (Nat.succ_ne_zero s), if_neg (Nat.succ_ne_zero s),
        ih _ hlt (hlt.trans hs) (by omega), ih _ hlt (hlt.trans hs) (by omega)]

theorem word_root : P.word 0 = [] := rfl

theorem zdata_root : P.zdfa.zdata 0 = [] := by
  show (P.zpath 0).getD [] = []
  rw [P.root]
  rfl

/-- The word of a node extends its parent's. -/
theorem word_of_pos (h0 : 0 < s) (hs : s < P.size) :
    P.word s = P.word (P.parent s) ++ P.letter s :: P.zdfa.zdata s := by
  have hlt := parent_lt_self (T := P.toLTree) h0 hs
  cases s with
  | zero => exact absurd h0 (Nat.lt_irrefl 0)
  | succ s =>
    show P.wordUpTo (s + 1) (s + 1) = _
    rw [PTree.wordUpTo, if_neg (Nat.succ_ne_zero s),
      wordUpTo_eq (hlt.trans hs) (Nat.le_of_lt_succ hlt)]

/-- The word of a child. -/
theorem word_child (h : P.At l s) (h1 : P.first s ≤ c) (h2 : c < P.first (s + 1)) :
    P.word c = P.word s ++ P.letter c :: P.zdfa.zdata c := by
  have hat := h.child h1 h2
  rw [word_of_pos hat.pos hat.lt_size, h.parent_child h1 h2]

/-- The strings of a subtree, in depth-first order of the nodes. -/
theorem map_words_visit {j : Nat} (hl : P.At l s) (hj : P.height - l ≤ j) (stem : List Nat)
    (hstem : P.word s = stem ++ P.zdfa.zdata s) :
    (P.zdfa.words s).map (fun w => stem ++ w) = ((P.visit j s).filter P.term).map P.word := by
  induction j generalizing l s stem with
  | zero => exact absurd hl.lt_height (by omega)
  | succ j ih =>
    rw [acyclic.map_words, ← hstem, LTree.visit]
    have hkids : P.zdfa.below (P.word s) (P.zdfa.moves s) =
        (((range' (P.first s) (P.first (s + 1) - P.first s)).flatMap (P.visit j)).filter
          P.term).map P.word := by
      show P.zdfa.below (P.word s) (P.moves s) = _
      rw [moves_eq hl.lt_size, ZDfa.below, flatMap_map, filter_flatMap, map_flatMap]
      refine flatMap_congr (fun c hc => ?_)
      rw [mem_range'_1] at hc
      have h2 : c < P.first (s + 1) := by omega
      have hword := word_child hl hc.1 h2
      have hchild := ih (hl.child hc.1 h2) (by omega) (P.word s ++ [P.letter c])
        (by rw [hword, append_assoc]; rfl)
      rw [← hchild]
      exact map_congr_left (fun w _ => by rw [append_assoc]; rfl)
    rw [hkids, filter_cons]
    show (if P.term s = true then _ else _) ++ _ = _
    split <;> rfl

/-- **THE STRINGS IN ORDER ARE THOSE OF THE TERMINAL NODES IN DEPTH-FIRST ORDER.** -/
theorem strings_eq_dfs : P.strings = (P.dfs.filter P.term).map P.word := by
  have h := map_words_visit (P := P) at_zero le_rfl [] (by rw [zdata_root]; rfl)
  rw [LTree.dfs]
  rw [Nat.sub_zero] at h
  rw [← h]
  exact (map_id _).symm

/-- The terminal node at a place of the depth-first order is the one with so many before it. -/
theorem terminal_iff : (P.dfs.filter P.term)[r]? = some x ↔
    ∃ l, P.At l x ∧ P.term x = true ∧ P.dfsRank P.term l x = r := by
  constructor
  · intro hx
    obtain ⟨hlt, hget⟩ := List.getElem_of_getElem? hx
    have hsplit : P.dfs.filter P.term =
        (P.dfs.filter P.term).take r ++ x :: (P.dfs.filter P.term).drop (r + 1) := by
      rw [← hget, ← drop_eq_getElem_cons hlt, take_append_drop]
    obtain ⟨u, v, huv, hu, hv⟩ := filter_eq_append_iff.mp hsplit
    obtain ⟨v1, v2, hv12, hnone, hterm, -⟩ := filter_eq_cons_iff.mp hv
    have hdfs : P.dfs = (u ++ v1) ++ x :: v2 := by rw [huv, hv12, append_assoc]
    obtain ⟨l, hl⟩ := exists_at_of_split hdfs
    refine ⟨l, hl, hterm, ?_⟩
    have hcount : v1.countP P.term = 0 := countP_eq_zero.mpr hnone
    rw [dfsRank_eq P.term hl hdfs, countP_append, countP_eq_length_filter, hu, length_take]
    omega
  · rintro ⟨l, hl, hterm, rfl⟩
    obtain ⟨u, v, hsplit⟩ := append_of_mem (mem_dfs hl.lt_size)
    have hfilter : P.dfs.filter P.term = u.filter P.term ++ x :: v.filter P.term := by
      rw [hsplit, filter_append, filter_cons, if_pos hterm]
    rw [dfsRank_eq P.term hl hsplit, hfilter, countP_eq_length_filter,
      getElem?_append_right le_rfl, Nat.sub_self]
    rfl

/-- The string with so many strings before it is that of the terminal node with so many
    terminal nodes before it. -/
theorem exists_node_of_string {w : List Nat} (h : P.strings[r]? = some w) :
    ∃ l x, P.At l x ∧ P.term x = true ∧ P.word x = w ∧ P.dfsRank P.term l x = r := by
  rw [strings_eq_dfs, getElem?_map, Option.map_eq_some_iff] at h
  obtain ⟨x, hx, hword⟩ := h
  obtain ⟨l, hl, hterm, hrank⟩ := terminal_iff.mp hx
  exact ⟨l, x, hl, hterm, hword, hrank⟩

/-- The rank of a terminal node is the place of its string. -/
theorem string_of_node (hl : P.At l x) (hterm : P.term x = true) :
    P.strings[P.dfsRank P.term l x]? = some (P.word x) := by
  rw [strings_eq_dfs, getElem?_map, terminal_iff.mpr ⟨l, hl, hterm, rfl⟩]
  rfl

/-- Terminal nodes are told apart by their strings. -/
theorem word_injective {y : Nat} (hx : x < P.size) (hy : y < P.size) (htx : P.term x = true)
    (hty : P.term y = true) (h : P.word x = P.word y) : x = y := by
  have hnodup : ((P.dfs.filter P.term).map P.word).Nodup := by
    rw [← strings_eq_dfs]
    exact strings_sorted.imp (fun hlt => ne_of_lt hlt)
  exact inj_on_of_nodup_map hnodup (mem_filter.mpr ⟨mem_dfs hx, htx⟩)
    (mem_filter.mpr ⟨mem_dfs hy, hty⟩) h

/-! ## The order of the nodes -/

variable (P) in
/-- The tree with every node terminal. -/
def PTree.everywhere : PTree :=
  { P with
    term := fun _ => true
    leaves := fun _ _ _ => rfl }

theorem everywhere_word (s : Nat) : P.everywhere.word s = P.word s := by
  have key : ∀ k s, P.everywhere.wordUpTo k s = P.wordUpTo k s := by
    intro k
    induction k with
    | zero => exact fun _ => rfl
    | succ k ih =>
      intro s
      rw [PTree.wordUpTo, ih]
      rfl
  exact key s s

/-- The strings of all nodes ascend in depth-first order. -/
theorem dfs_words_sorted : (P.dfs.map P.word).Pairwise (· < ·) := by
  have h := strings_sorted (P := P.everywhere)
  have hall : P.everywhere.dfs.filter P.everywhere.term = P.dfs :=
    filter_eq_self.mpr (fun _ _ => rfl)
  have hwords : P.everywhere.word = P.word := funext everywhere_word
  rwa [strings_eq_dfs, hall, hwords] at h

/-- The strings up to that of a node are those of the terminal nodes up to it. -/
theorem countP_strings_le (h : P.At l s) :
    P.strings.countP (fun x => decide (x ≤ P.word s)) =
      P.dfsRank P.term l s + (if P.term s then 1 else 0) := by
  obtain ⟨u, v, hsplit⟩ := append_of_mem (mem_dfs h.lt_size)
  have hsorted := dfs_words_sorted (P := P)
  rw [hsplit, map_append, map_cons, pairwise_append, pairwise_cons] at hsorted
  obtain ⟨-, ⟨hafter, -⟩, hbefore⟩ := hsorted
  have hu : ∀ x ∈ u, P.word x ≤ P.word s := fun x hx =>
    (hbefore _ (mem_map_of_mem hx) _ mem_cons_self).le
  have hv : ∀ x ∈ v, ¬ P.word x ≤ P.word s := fun x hx =>
    not_le_of_gt (hafter _ (mem_map_of_mem hx))
  rw [strings_eq_dfs, countP_map, countP_filter, hsplit, countP_append,
    countP_cons, dfsRank_eq P.term h hsplit]
  have hcu : u.countP (fun a => ((fun x => decide (x ≤ P.word s)) ∘ P.word) a && P.term a) =
      u.countP P.term :=
    countP_congr (fun x hx => by simp [hu x hx])
  have hcv : v.countP (fun a => ((fun x => decide (x ≤ P.word s)) ∘ P.word) a && P.term a) = 0 :=
    countP_eq_zero.mpr (fun x hx => by simp [hv x hx])
  rw [hcu, hcv]
  simp

/-! ## The children of a node by their letters -/

variable (P) in
/-- Whether a child of `s` has letter `v`. -/
def PTree.hasLetter (s v : Nat) : Bool :=
  (range' (P.first s) (P.first (s + 1) - P.first s)).any (fun c => P.letter c == v)

variable (P) in
/-- The first child whose letter is no less, or the place behind the last child. -/
def PTree.place (s v : Nat) : Nat := P.first s + ones (P.hasLetter s) v

theorem hasLetter_iff :
    P.hasLetter s v = true ↔ ∃ c, P.first s ≤ c ∧ c < P.first (s + 1) ∧ P.letter c = v := by
  unfold PTree.hasLetter
  simp only [any_eq_true, mem_range'_1, beq_iff_eq]
  constructor
  · rintro ⟨c, ⟨h1, h2⟩, h3⟩
    exact ⟨c, h1, by omega, h3⟩
  · rintro ⟨c, h1, h2, h3⟩
    exact ⟨c, ⟨h1, by omega⟩, h3⟩

theorem place_zero (s : Nat) : P.place s 0 = P.first s := rfl

/-- One more letter, one more child if it is there. -/
theorem place_succ (s v : Nat) :
    P.place s (v + 1) = P.place s v + (if P.hasLetter s v = true then 1 else 0) := by
  unfold PTree.place
  rw [ones_succ, ← Nat.add_assoc]

theorem place_mono (s : Nat) {v' : Nat} (h : v ≤ v') : P.place s v ≤ P.place s v' :=
  Nat.add_le_add_left (ones_mono _ h) _

/-- The children with smaller letters are those before the place. -/
theorem letter_lt_iff (h1 : P.first s ≤ c) (h2 : c < P.first (s + 1)) :
    P.letter c < v ↔ c < P.place s v := by
  induction v generalizing c with
  | zero =>
    rw [place_zero]
    omega
  | succ v ih =>
    rw [place_succ, Nat.lt_succ_iff_lt_or_eq]
    by_cases hv : P.hasLetter s v = true
    · -- the child with the letter stands at the place
      obtain ⟨d, hd1, hd2, hd3⟩ := hasLetter_iff.mp hv
      have hge : P.place s v ≤ d := by
        have := (ih hd1 hd2).not.mp (by omega)
        omega
      have hle : d ≤ P.place s v := by
        by_contra hlt
        have hp1 := place_mono (P := P) s (Nat.zero_le v)
        rw [place_zero] at hp1
        have := (ih hp1 (by omega)).not.mpr (Nat.lt_irrefl _)
        have := letter_lt hp1 (not_le.mp hlt) hd2
        omega
      have heq : P.letter c = v ↔ c = d := by
        constructor
        · intro h
          rcases Nat.lt_trichotomy c d with hlt | heq | hgt
          · have := letter_lt h1 hlt hd2
            omega
          · exact heq
          · have := letter_lt hd1 hgt h2
            omega
        · rintro rfl
          exact hd3
      rw [ih h1 h2, if_pos hv]
      omega
    · have hne : P.letter c ≠ v := fun h => hv (hasLetter_iff.mpr ⟨c, h1, h2, h⟩)
      rw [ih h1 h2, if_neg hv]
      omega

/-- There are no children behind the last. -/
theorem place_le : P.place s v ≤ P.first (s + 1) := by
  induction v with
  | zero => exact first_mono (Nat.le_add_right s 1)
  | succ v ih =>
    rw [place_succ]
    split
    · rename_i hv
      obtain ⟨d, hd1, hd2, hd3⟩ := hasLetter_iff.mp hv
      have := (letter_lt_iff (v := v) hd1 hd2).not.mp (by omega)
      omega
    · exact ih

/-- The child with the letter, if there is one, stands at the place. -/
theorem letter_place (h : P.hasLetter s v = true) :
    P.place s v < P.first (s + 1) ∧ P.letter (P.place s v) = v := by
  obtain ⟨d, hd1, hd2, hd3⟩ := hasLetter_iff.mp h
  have h1 := (letter_lt_iff (v := v) hd1 hd2).not.mp (by omega)
  have h2 := (letter_lt_iff (v := v + 1) hd1 hd2).mp (by omega)
  rw [place_succ, if_pos h] at h2
  have heq : P.place s v = d := by omega
  rw [heq]
  exact ⟨hd2, hd3⟩

/-- What stands at the place has the letter or a greater one. -/
theorem hasLetter_eq (h : P.place s v < P.first (s + 1)) :
    P.hasLetter s v = decide (P.letter (P.place s v) = v) := by
  by_cases hv : P.hasLetter s v = true
  · rw [hv, decide_eq_true (letter_place hv).2]
  · have hp1 := place_mono (P := P) s (Nat.zero_le v)
    rw [decide_eq_false (fun he => hv (hasLetter_iff.mpr ⟨_, hp1, h, he⟩))]
    exact Bool.eq_false_iff.mpr hv

/-- Behind the last child no letter follows. -/
theorem hasLetter_end (h : P.first (s + 1) ≤ P.place s v) : P.hasLetter s v = false := by
  rw [Bool.eq_false_iff]
  intro hv
  have := (letter_place hv).1
  omega

/-- Letters ascend if they do among the nodes. -/
theorem ascending_of_nodes {T : LTree} {letter : Nat → Nat}
    (h : ∀ s, s < T.size → ∀ c, c < T.size → T.first s ≤ c → c + 1 < T.first (s + 1) →
      letter c < letter (c + 1)) (s c : Nat) (h1 : T.first s ≤ c) (h2 : c + 1 < T.first (s + 1)) :
    letter c < letter (c + 1) := by
  have hs : s < T.size := lt_size_of_child h1 (by omega)
  have hle := first_le_size (T := T) (show s + 1 ≤ T.size from hs)
  exact h s hs c (by omega) h1 h2

/-! ## Trees without strings -/

/-- A tree in which the children of a node are told apart by their numbers, every edge is a
    single letter and every node is terminal. -/
def numbered (T : LTree) (hdeg : ∀ s, T.first (s + 1) ≤ T.first s + 256) : PTree where
  toLTree := T
  letter := fun c => (c - T.first (T.parent c)) % 256
  zpath := fun _ => none
  term := fun _ => true
  ascending := by
    intro s c h1 h2
    have hs : s < T.size := lt_size_of_child h1 (by omega)
    have hle := first_le_size (T := T) (show s + 1 ≤ T.size from hs)
    have hp : T.parent c = s := parent_eq (by omega) h1 (by omega)
    have hp' : T.parent (c + 1) = s := parent_eq (by omega) (by omega) h2
    have hd := hdeg s
    rw [hp, hp', Nat.mod_eq_of_lt (by omega), Nat.mod_eq_of_lt (by omega)]
    omega
  byte := fun _ => Nat.mod_lt _ (by decide)
  zbytes := noZpath_bytes
  leaves := fun _ _ _ => rfl
  root := noZpath_root

end Patricia
