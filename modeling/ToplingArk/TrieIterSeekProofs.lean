import ToplingArk.TrieIterRunProofs

/-! # The iterator of a nested LOUDS trie — seeking

    A key splits the strings where its path leaves the trie: `seek_lower_bound` goes to the
    first string of the second part.  `seek_max_prefix` follows the path as far as it goes
    and stays at the last terminal state on it. -/

namespace NestLouds

open BitCount LevelTree Patricia Zpath WordCursor List Option Nat

variable {t : Trie} {room : IterRoom} {P : PTree} {s i fuel : Nat} {m : Nat × Nat}
  {w r key : List Nat} {anc : List Anc} {best : Iter}

/-! ## Where a key splits the strings -/

/-- The children before child `i`. -/
theorem mem_take_moves (hs : s < P.size) (hm : m ∈ (P.zdfa.moves s).take i) :
    P.first s ≤ m.2 ∧ m.2 < P.first s + i ∧ m.2 < P.first (s + 1) ∧ m.1 = P.letter m.2 := by
  obtain ⟨j, hj, rfl⟩ := mem_take_iff_getElem.mp hm
  have hlen := length_moves hs
  have hget := moves_get hs (i := j) (by omega)
  rw [getElem?_eq_getElem (by omega)] at hget
  rw [some.inj hget]
  dsimp only
  omega

/-- The children from child `i` on. -/
theorem mem_drop_moves (hs : s < P.size) (hm : m ∈ (P.zdfa.moves s).drop i) :
    P.first s + i ≤ m.2 ∧ m.2 < P.first (s + 1) ∧ m.1 = P.letter m.2 := by
  obtain ⟨j, hj, rfl⟩ := mem_drop_iff_getElem.mp hm
  have hlen := length_moves hs
  have hget := moves_get hs (i := i + j) (by omega)
  rw [getElem?_eq_getElem (by omega)] at hget
  rw [some.inj hget]
  dsimp only
  omega

/-- The strings in two parts: those before the key and the others. -/
structure Splits (P : PTree) (key : List Nat) (U V : List (List Nat)) : Prop where
  strings : P.strings = U ++ V
  before : ∀ x ∈ U, x < key
  behind : ∀ x ∈ V, key ≤ x

section Split

variable {anc : List Anc} {s : Nat} (hs : Leads P.zdfa 0 anc s) {r : List Nat}

include hs

/-- No string of the state is before the key. -/
theorem splits_here (hnot : ∀ v, ¬ P.zdfa.zdata s ++ v < r) :
    Splits P (pathWord P.zdfa anc ++ r) (before P.zdfa anc)
      (P.zdfa.own s (full P.zdfa anc s) ++ rest P.zdfa anc s 0) where
  strings := words_split acyclic hs
  before := fun x hx => lt_of_mem_before hs hx r
  behind := by
    have hbelow : ∀ v, pathWord P.zdfa anc ++ r ≤ full P.zdfa anc s ++ v := by
      intro v
      refine le_of_not_gt (fun hlt => hnot v ?_)
      rwa [full, append_assoc, append_lt_append_iff] at hlt
    intro x hx
    rcases mem_append.mp hx with hx | hx
    · obtain ⟨-, rfl⟩ := mem_own.mp hx
      have h := hbelow []
      rwa [append_nil] at h
    · rcases mem_rest.mp hx with ⟨m, -, v, -, rfl⟩ | hx
      · exact hbelow (m.1 :: v)
      · exact (lt_of_mem_after hs hx r).le

/-- All strings of the state are before the key. -/
theorem splits_above (hall : ∀ v, P.zdfa.zdata s ++ v < r) :
    Splits P (pathWord P.zdfa anc ++ r) (upTo P.zdfa anc s (P.zdfa.moves s).length)
      (after P.zdfa anc) where
  strings := by
    have h := words_upTo acyclic hs (P.zdfa.moves s).length
    rwa [rest_end le_rfl] at h
  before := by
    have hbelow : ∀ v, full P.zdfa anc s ++ v < pathWord P.zdfa anc ++ r := by
      intro v
      rw [full, append_assoc, append_lt_append_iff]
      exact hall v
    intro x hx
    rcases mem_upTo.mp hx with hx | ⟨-, rfl⟩ | ⟨m, -, v, -, rfl⟩
    · exact lt_of_mem_before hs hx r
    · have h := hbelow []
      rwa [append_nil] at h
    · exact hbelow (m.1 :: v)
  behind := fun x hx => (lt_of_mem_after hs hx r).le

/-- The key goes on with a letter that no child has. -/
theorem splits_gap {ch : Nat} (hr : r = P.zdfa.zdata s ++ ch :: w)
    (hletter : P.hasLetter s ch = false) :
    Splits P (pathWord P.zdfa anc ++ r) (upTo P.zdfa anc s (P.place s ch - P.first s))
      (rest P.zdfa anc s (P.place s ch - P.first s)) := by
  have hlt := leads_lt hs
  have hkey : pathWord P.zdfa anc ++ r = full P.zdfa anc s ++ ch :: w := by
    rw [hr, full, append_assoc]
  refine ⟨words_upTo acyclic hs _, fun x hx => ?_, fun x hx => ?_⟩
  · rcases mem_upTo.mp hx with hx | ⟨-, rfl⟩ | ⟨m, hm, v, -, rfl⟩
    · exact lt_of_mem_before hs hx r
    · rw [hkey]
      exact lt_append_cons
    · obtain ⟨h1, h2, h3, h4⟩ := mem_take_moves hlt hm
      rw [hkey, h4]
      exact append_cons_lt ((letter_lt_iff h1 h3).mpr (by omega))
  rcases mem_rest.mp hx with ⟨m, hm, v, -, rfl⟩ | hx
  · obtain ⟨h1, h2, h3⟩ := mem_drop_moves hlt hm
    have hnot := (letter_lt_iff (v := ch) (show P.first s ≤ m.2 by omega) h2).not.mpr (by omega)
    have hne : P.letter m.2 ≠ ch := by
      intro heq
      rw [hasLetter_iff.mpr ⟨m.2, by omega, h2, heq⟩] at hletter
      cases hletter
    rw [hkey]
    exact (append_cons_lt (by omega)).le
  · exact (lt_of_mem_after hs hx r).le

end Split

/-! ## `seek_lower_bound` -/

section Seek

variable (h : t.Carries P) (henter : Enterable t room P)

include h henter

/-- The least string below a state, its own first. -/
theorem currMinSuffix_spec (hs : Leads P.zdfa 0 anc s) :
    ∃ r, t.currMinSuffix room s (entryOf P s 0) (stackOf P anc) (full P.zdfa anc s) = some r ∧
      Reaches P (P.zdfa.own s (full P.zdfa anc s) ++ rest P.zdfa anc s 0) r := by
  have hlt := leads_lt hs
  have hown : P.zdfa.own s (full P.zdfa anc s) =
      if P.term s = true then [full P.zdfa anc s] else [] := rfl
  unfold Trie.currMinSuffix
  rw [h.terms s hlt, hown]
  simp only [bind_eq_bind, bind_some]
  by_cases hterm : P.term s = true
  · rw [if_pos hterm, if_pos hterm]
    exact ⟨some (iterAt P anc s), rfl, anc, s, hs, hterm, rfl, rfl⟩
  have hkids := kids_of_not_term hlt hterm
  obtain ⟨it, hit, hreach⟩ := lexMin_child h henter hs hkids
  rw [if_neg hterm, if_neg hterm]
  refine ⟨some it, (if_neg hkids.ne').trans ?_, hreach⟩
  show (t.getFirstChar (P.first s) (P.first _ - P.first s)).bind _ = _
  rw [getFirstChar_spec h hlt (by omega)]
  show (t.lexMin room (P.first s + 0) _ (full P.zdfa anc s ++ [P.letter (P.first s + 0)])).bind _ =
    _
  rw [hit]
  rfl

/-- **THE LOOP OF `seek_lower_bound`**, when the path has been read and `r` is left of the key. -/
theorem seekLoop_spec (hs : Leads P.zdfa 0 anc s) (hr : ∀ b ∈ r, b < 256)
    (hfuel : r.length < fuel) :
    ∃ res U V, t.seekLoop room fuel s (stackOf P anc) (pathWord P.zdfa anc) r = some res ∧
      Splits P (pathWord P.zdfa anc ++ r) U V ∧ Reaches P V res := by
  induction fuel generalizing anc s r with
  | zero => cases hfuel
  | succ fuel ih =>
    have hlt := leads_lt hs
    -- when no string of the state is before the key
    have hhere : (∀ v, ¬ P.zdfa.zdata s ++ v < r) →
        ∃ res U V, t.currMinSuffix room s (entryOf P s 0) (stackOf P anc) (full P.zdfa anc s) =
          some res ∧ Splits P (pathWord P.zdfa anc ++ r) U V ∧ Reaches P V res := by
      intro hnot
      obtain ⟨res, hres, hreach⟩ := currMinSuffix_spec h henter hs
      exact ⟨res, _, _, hres, splits_here hs hnot, hreach⟩
    rw [Trie.seekLoop, enter henter hs]
    simp only [bind_eq_bind, bind_some]
    cases hmeet : meet (P.zdfa.zdata s) r with
    | below => exact hhere (meet_small (.inr hmeet))
    | short => exact hhere (meet_small (.inl hmeet))
    | above =>
      obtain ⟨res, hres, hreach⟩ := rewindStackForNext_spec h henter hs
      exact ⟨res, _, _, hres, splits_above hs (meet_above hmeet), hreach⟩
    | rest w =>
      have hsplit := meet_rest hmeet
      cases w with
      | nil =>
        refine hhere (fun v hlt => ?_)
        rw [hsplit, append_lt_append_iff] at hlt
        exact not_lt_nil _ hlt
      | cons ch w =>
        have hch : ch < 256 := hr ch (by rw [hsplit]; simp)
        have hw : ∀ b ∈ w, b < 256 := fun b hb => hr b (by rw [hsplit]; simp [hb])
        have hlen := rest_length hsplit
        have hge := first_le_place (P := P) s ch
        have hsearch : t.searchChild (entryOf P s 0).child0 (entryOf P s 0).nChildren ch =
            some (childAt P s ch) := searchChild_spec h hlt hch
        dsimp only
        rw [hsearch]
        unfold childAt
        by_cases hin : P.place s ch < P.first (s + 1)
        · obtain ⟨i, hi⟩ := exists_add_of_le hge
          have hidx : P.place s ch - P.first s = i := by omega
          have hkid : i < P.first (s + 1) - P.first s := by omega
          rw [if_pos hin, hidx]
          cases hletter : P.hasLetter s ch with
          | true =>
            -- down to the child with the letter
            have hword := (letter_place hletter).2
            rw [hi] at hword
            have hchild := leads_child hs hlt hkid
            rw [hword] at hchild
            obtain ⟨res, U, V, hres, hsp, hreach⟩ := ih hchild hw (by omega)
            refine ⟨res, U, V, ?_, ?_, hreach⟩
            · show t.seekLoop room fuel _ _ _ w = _
              rw [setNth_entryOf hkid]
              exact hres
            · rw [pathWord_append, full, append_assoc] at hsp
              exact hsplit ▸ hsp
          | false =>
            obtain ⟨it, hit, hreach⟩ := lexMin_child h henter hs hkid
            have hplace : P.place s (ch + 1) = P.first s + i := by
              rw [place_succ, hletter, hi]
              rfl
            have hchar := getNthCharNext_spec h hlt (le_add_right _ _) (by omega) hch hplace
            rw [Nat.add_sub_cancel_left] at hchar
            have hsp := splits_gap hs hsplit hletter
            rw [hidx] at hsp
            refine ⟨some it, _, _, ?_, hsp, hreach⟩
            show (t.getNthCharNext (P.first s) (P.first _ - P.first s) i ch).bind _ = _
            rw [hchar]
            show (t.lexMin room (P.first s + i) _ (full P.zdfa anc s ++ [P.letter _])).bind _ = _
            rw [setNth_entryOf hkid, hit]
            rfl
        · -- all letters are smaller
          obtain ⟨res, hres, hreach⟩ := rewindStackForNext_spec h henter hs
          have hsp := splits_gap hs hsplit (hasLetter_end (not_lt.mp hin))
          rw [rest_end (by rw [length_moves hlt]; omega)] at hsp
          rw [if_neg hin]
          exact ⟨res, _, _, hres, hsp, hreach⟩

end Seek

/-! ## `seek_max_prefix` -/

theorem agree_le_left (z w : List Nat) : Trie.agree z w ≤ z.length := by
  induction z generalizing w with
  | nil => exact le_refl 0
  | cons c z ih =>
    cases w with
    | nil => exact zero_le _
    | cons d w =>
      rw [Trie.agree]
      split
      · exact succ_le_succ (ih w)
      · exact zero_le _

/-- The key and the edge string are the same as far as they agree. -/
theorem take_agree (z w : List Nat) : w.take (Trie.agree z w) = z.take (Trie.agree z w) := by
  induction z generalizing w with
  | nil => rfl
  | cons c z ih =>
    cases w with
    | nil => rfl
    | cons d w =>
      rw [Trie.agree]
      split
      · rename_i heq
        rw [take_succ_cons, take_succ_cons, ih, heq]
      · rfl

theorem agree_le_right (z w : List Nat) : Trie.agree z w ≤ w.length := by
  have hlen := congrArg length (take_agree z w)
  have hle := agree_le_left z w
  rw [length_take, length_take] at hlen
  omega

/-- A common beginning is no longer than the agreement. -/
theorem le_agree {z : List Nat} {m : Nat} (hm : m ≤ w.length) (hpre : w.take m <+: z) :
    m ≤ Trie.agree z w := by
  induction m generalizing z w with
  | zero => exact zero_le _
  | succ m ih =>
    cases w with
    | nil => exact absurd hm (not_succ_le_zero m)
    | cons d w =>
      cases z with
      | nil =>
        rw [prefix_nil] at hpre
        cases hpre
      | cons c z =>
        rw [take_succ_cons, cons_prefix_cons] at hpre
        rw [Trie.agree, if_pos hpre.1]
        exact succ_le_succ (ih (le_of_succ_le_succ hm) hpre.2)

/-- Among the given strings that are prefixes of the key the iterator is at the longest, or it is
    nowhere if there are none. -/
def Best (P : PTree) (key : List Nat) (U : List (List Nat)) (best : Iter) : Prop :=
  (best.stack = [] ∧ ∀ x ∈ U, ¬ x <+: key) ∨
    ∃ anc s, Leads P.zdfa 0 anc s ∧ P.term s = true ∧ best = iterAt P anc s ∧
      full P.zdfa anc s <+: key ∧ ∀ x ∈ U, x <+: key → x.length ≤ (full P.zdfa anc s).length

/-- More strings that are no beginnings change nothing. -/
theorem Best.mono {U U' : List (List Nat)} (h : Best P key U best)
    (hmore : ∀ x ∈ U', x <+: key → x ∈ U) : Best P key U' best := by
  rcases h with ⟨hstack, hnone⟩ | ⟨anc, s, hs, hterm, hbest, hpre, hlong⟩
  · exact .inl ⟨hstack, fun x hx hpre => hnone x (hmore x hx hpre) hpre⟩
  · exact .inr ⟨anc, s, hs, hterm, hbest, hpre, fun x hx hx' => hlong x (hmore x hx hx') hx'⟩

section Path

variable {anc : List Anc} {s : Nat} (hs : Leads P.zdfa 0 anc s) {r key : List Nat}

include hs

/-- A string before the path that is a prefix of the key is shorter than the path. -/
theorem length_le_of_before {x : List Nat} (hx : x ∈ before P.zdfa anc) (hkey : x <+: key)
    (hfull : full P.zdfa anc s <+: key) : x.length ≤ (full P.zdfa anc s).length := by
  by_contra hlong
  obtain ⟨v, rfl⟩ := prefix_of_prefix_length_le hfull hkey (by omega)
  rw [full, append_assoc] at hx
  exact absurd (lt_of_mem_before hs hx _) (lt_irrefl _)

/-- At a state whose string is a prefix of the key. -/
theorem Best.enter (hbest : Best P key (before P.zdfa anc) best)
    (hfull : full P.zdfa anc s <+: key) :
    Best P key (upTo P.zdfa anc s 0) (if P.term s then iterAt P anc s else best) := by
  split
  · rename_i hterm
    refine .inr ⟨anc, s, hs, hterm, rfl, hfull, fun x hx hpre => ?_⟩
    rcases mem_upTo.mp hx with hx | ⟨-, rfl⟩ | ⟨m, hm, -⟩
    · exact length_le_of_before hs hx hpre hfull
    · exact le_rfl
    · cases hm
  · rename_i hterm
    refine hbest.mono (fun x hx _ => ?_)
    rcases mem_upTo.mp hx with hx | ⟨hterm', -⟩ | ⟨m, hm, -⟩
    · exact hx
    · exact absurd hterm' hterm
    · cases hm

/-- Where the path of the key ends all strings have been looked at. -/
theorem Best.finish (hbest : Best P key (upTo P.zdfa anc s 0) best)
    (hkey : key = pathWord P.zdfa anc ++ r)
    (hnone : ∀ m ∈ P.zdfa.moves s, ∀ v, ¬ full P.zdfa anc s ++ m.1 :: v <+: key) :
    Best P key P.strings best := by
  refine hbest.mono (fun x hx hpre => ?_)
  have hx : x ∈ upTo P.zdfa anc s 0 ++ rest P.zdfa anc s 0 := by
    rw [← words_upTo acyclic hs 0]
    exact hx
  rcases mem_append.mp hx with hx | hx
  · exact hx
  · rcases mem_rest.mp hx with ⟨m, hm, v, -, rfl⟩ | hx
    · exact absurd hpre (hnone m (mem_of_mem_drop hm) v)
    · -- behind the path a string is greater than the key
      have hgt := lt_of_mem_after hs hx r
      obtain ⟨v, hv⟩ := hpre
      rw [← hkey, ← hv] at hgt
      exact absurd hgt (not_lt_of_ge (le_append x v))

/-- The key leaves the trie on the edge to the state. -/
theorem matched_edge (hkey : key = pathWord P.zdfa anc ++ r)
    (hlt : Trie.agree (P.zdfa.zdata s) r < (P.zdfa.zdata s).length) :
    Matched P.strings key ((pathWord P.zdfa anc).length + Trie.agree (P.zdfa.zdata s) r) := by
  have hright := agree_le_right (P.zdfa.zdata s) r
  have htake : ∀ m, key.take ((pathWord P.zdfa anc).length + m) =
      pathWord P.zdfa anc ++ r.take m := by
    intro m
    rw [hkey, take_length_add_append]
  refine ⟨?_, ?_, ?_⟩
  · rw [hkey, length_append]
    omega
  · obtain ⟨x, hx, hpre⟩ := full_prefix_string hs
    refine ⟨x, hx, List.IsPrefix.trans ?_ hpre⟩
    rw [htake, take_agree, full, prefix_append_right_inj]
    exact take_prefix _ _
  rintro m hm ⟨x, hx, hpre⟩
  by_contra hgt
  obtain ⟨k, rfl⟩ : ∃ k, m = (pathWord P.zdfa anc).length + k :=
    exists_add_of_le (by omega)
  rw [htake] at hpre
  rw [hkey, length_append] at hm
  obtain ⟨y, rfl⟩ := (prefix_append _ _).trans hpre
  obtain ⟨v, rfl⟩ := mem_words_append ((mem_words_path acyclic hs).mp hx)
  rw [prefix_append_right_inj] at hpre
  -- then the key and the edge string agree for longer
  have hmore := ( take_prefix (Trie.agree (P.zdfa.zdata s) r + 1) (r.take k)).trans hpre
  rw [take_take] at hmore
  have hshort := prefix_of_prefix_length_le hmore (prefix_append _ v)
    (by rw [length_take]; omega)
  have := le_agree (by omega) hshort
  omega

/-- The key leaves the trie at the state. -/
theorem matched_node (hkey : key = full P.zdfa anc s ++ r)
    (hnone : ∀ m ∈ P.zdfa.moves s, ∀ v, ¬ full P.zdfa anc s ++ m.1 :: v <+: key) :
    Matched P.strings key (full P.zdfa anc s).length := by
  refine ⟨?_, ?_, ?_⟩
  · rw [hkey, length_append]
    exact le_add_right _ _
  · obtain ⟨x, hx, hpre⟩ := full_prefix_string hs
    refine ⟨x, hx, ?_⟩
    rwa [hkey, take_left]
  rintro m hm ⟨x, hx, hpre⟩
  by_contra hgt
  obtain ⟨k, rfl⟩ : ∃ k, m = (full P.zdfa anc s).length + (k + 1) :=
    ⟨m - (full P.zdfa anc s).length - 1, by omega⟩
  cases r with
  | nil =>
    rw [hkey, append_nil] at hm
    omega
  | cons ch w =>
    have htake : full P.zdfa anc s ++ [ch] <+: x := by
      refine List.IsPrefix.trans ?_ hpre
      rw [hkey, take_length_add_append, take_succ_cons, prefix_append_right_inj, cons_prefix_cons]
      exact ⟨rfl, nil_prefix⟩
    obtain ⟨v, rfl⟩ := htake
    rw [full, append_assoc, append_assoc] at hx
    have hwords := (mem_words_path acyclic hs).mp hx
    rw [acyclic.words_eq, mem_append, mem_own, mem_below] at hwords
    rcases hwords with ⟨-, heq⟩ | ⟨m, hm, y, -, heq⟩
    · have := congrArg length heq
      simp at this
    · have heq := append_cancel_left heq
      refine hnone m hm [] ?_
      rw [hkey, prefix_append_right_inj, cons_prefix_cons]
      exact ⟨(cons.inj heq).1.symm, nil_prefix⟩

end Path

/-- **THE LOOP OF `seek_max_prefix`**, when the path has been read and `r` is left of the key. -/
theorem maxPrefixLoop_spec (h : t.Carries P) (henter : Enterable t room P)
    (hs : Leads P.zdfa 0 anc s) (hkey : key = pathWord P.zdfa anc ++ r) (hr : ∀ b ∈ r, b < 256)
    (hfuel : r.length < fuel) (hbest : Best P key (before P.zdfa anc) best) :
    ∃ best' n, t.maxPrefixLoop room fuel s (stackOf P anc) (pathWord P.zdfa anc) r best =
        some (best', n) ∧ Best P key P.strings best' ∧ Matched P.strings key n := by
  induction fuel generalizing anc s r best with
  | zero => cases hfuel
  | succ fuel ih =>
    have hlt := leads_lt hs
    rw [Trie.maxPrefixLoop, enter henter hs]
    simp only [bind_eq_bind, bind_some]
    by_cases hedge : Trie.agree (P.zdfa.zdata s) r < (P.zdfa.zdata s).length
    · -- nothing with the edge string is a prefix of the key
      have hnot : ∀ v, ¬ full P.zdfa anc s ++ v <+: key := by
        intro v hpre
        rw [hkey, full, append_assoc, prefix_append_right_inj] at hpre
        have hz := (prefix_append _ v).trans hpre
        have hall := le_agree (z := P.zdfa.zdata s) hz.length_le
          (by rw [← prefix_iff_eq_take.mp hz])
        omega
      rw [if_pos hedge]
      refine ⟨best, _, rfl, Best.finish hs (hbest.mono (fun x hx hpre => ?_)) hkey
        (fun m _ v => hnot _), matched_edge hs hkey hedge⟩
      rcases mem_upTo.mp hx with hx | ⟨-, rfl⟩ | ⟨m, hm, -⟩
      · exact hx
      · exact absurd (by rwa [append_nil]) (hnot [])
      · cases hm
    have hagree : Trie.agree (P.zdfa.zdata s) r = (P.zdfa.zdata s).length :=
      le_antisymm (agree_le_left _ _) (not_lt.mp hedge)
    have hz : r.take (P.zdfa.zdata s).length = P.zdfa.zdata s := by
      have htake := take_agree (P.zdfa.zdata s) r
      rwa [hagree, take_length] at htake
    have hsplit : r = P.zdfa.zdata s ++ r.drop (P.zdfa.zdata s).length := by
      conv_lhs => rw [← take_append_drop (P.zdfa.zdata s).length r, hz]
    have hfull : key = full P.zdfa anc s ++ r.drop (P.zdfa.zdata s).length := by
      rw [full, append_assoc, ← hsplit, hkey]
    have hbest' := hbest.enter hs (hfull ▸ prefix_append _ _)
    rw [if_neg hedge, h.terms s hlt]
    -- when no child goes on with the key
    have hstop : (∀ m ∈ P.zdfa.moves s, ∀ v, ¬ full P.zdfa anc s ++ m.1 :: v <+: key) →
        ∃ best' n, some (if P.term s = true then iterAt P anc s else best,
            (full P.zdfa anc s).length) = some (best', n) ∧
          Best P key P.strings best' ∧ Matched P.strings key n := fun hnone =>
      ⟨_, _, rfl, Best.finish hs hbest' hkey hnone, matched_node hs hfull hnone⟩
    cases hdrop : r.drop (P.zdfa.zdata s).length with
    | nil =>
      refine hstop (fun m _ v hpre => ?_)
      rw [hfull, hdrop] at hpre
      have := hpre.length_le
      simp at this
    | cons ch w =>
      rw [hdrop] at hfull hsplit
      have hch : ch < 256 := hr ch (by rw [hsplit]; simp)
      have hw : ∀ b ∈ w, b < 256 := fun b hb => hr b (by rw [hsplit]; simp [hb])
      have hlen := rest_length hsplit
      have hsearch : t.searchChild (entryOf P s 0).child0 (entryOf P s 0).nChildren ch =
          some (childAt P s ch) := searchChild_spec h hlt hch
      dsimp only
      rw [hsearch]
      unfold childAt
      cases hletter : P.hasLetter s ch with
      | true =>
        obtain ⟨hin, hword⟩ := letter_place hletter
        obtain ⟨i, hi⟩ := exists_add_of_le (first_le_place (P := P) s ch)
        have hkid : i < P.first (s + 1) - P.first s := by omega
        have hchild := leads_child hs hlt hkid
        rw [hi] at hword
        rw [hword] at hchild
        have hkey' : key = pathWord P.zdfa (⟨s, i, ch⟩ :: anc) ++ w := by
          rw [hfull, pathWord_append]
        -- the children before have other letters
        have hnext : Best P key (before P.zdfa (⟨s, i, ch⟩ :: anc))
            (if P.term s = true then iterAt P anc s else best) := by
          refine hbest'.mono (fun x hx hpre => ?_)
          rcases mem_upTo.mp hx with hx | hx | ⟨m, hm, v, -, rfl⟩
          · exact mem_upTo.mpr (.inl hx)
          · exact mem_upTo.mpr (.inr (.inl hx))
          · obtain ⟨h1, h2, h3, h4⟩ := mem_take_moves hlt hm
            dsimp only at h2
            rw [hfull, prefix_append_right_inj, cons_prefix_cons] at hpre
            have hsmall : P.letter m.2 < ch := (letter_lt_iff h1 h3).mpr (by omega)
            omega
        obtain ⟨best', n, hloop, hres⟩ := ih hchild hkey' hw (by omega) hnext
        refine ⟨best', n, ?_, hres⟩
        rw [if_pos hin, show P.place s ch - P.first s = i by omega]
        show t.maxPrefixLoop room fuel _ _ _ w _ = _
        rw [setNth_entryOf hkid]
        exact hloop
      | false =>
        have hnone : ∀ m ∈ P.zdfa.moves s, ∀ v, ¬ full P.zdfa anc s ++ m.1 :: v <+: key := by
          intro m hm v hpre
          obtain ⟨-, h1, h2, h3⟩ := mem_moves.mp hm
          rw [hfull, prefix_append_right_inj, cons_prefix_cons] at hpre
          rw [hasLetter_iff.mpr ⟨m.2, h1, h2, h3 ▸ hpre.1⟩] at hletter
          cases hletter
        split <;> exact hstop hnone

end NestLouds
