import ToplingArk.LexIterRunProofs

/-! # MyLexIteratorT — the iterator is a cursor in the sorted list of words

    Every path is a place in the list of words in order.  `incr` and `decr` go to the
    neighbouring places, `seek_lower_bound` to the first word that is not before the key, and
    an iterator that has left the list stays outside until the next seek. -/

namespace LexIter

open Automata Zpath Nat List

variable {D : ZDfa} {anc : List Anc} {s : Nat}

/-- The iterator is at a word, with the words before and behind it. -/
def At (D : ZDfa) (root : Nat) (it : Iter) (u : List (List Nat)) (w : List Nat)
    (v : List (List Nat)) : Prop :=
  ∃ fwd anc s, Sits D root it fwd anc s (lead fwd - 1) ∧ D.term s = true ∧
    u = before D anc ∧ w = full D anc s ∧ v = rest D anc s 0

section

variable {root : Nat} {it : Iter} {u v : List (List Nat)} {w : List Nat}

/-- An iterator that sits on a final state shows its word. -/
theorem at_of_sits {f : Bool} (h : Sits D root it f anc s (lead f - 1)) (hterm : D.term s = true) :
    At D root it (before D anc) (full D anc s) (rest D anc s 0) :=
  ⟨f, anc, s, h, hterm, rfl, rfl, rfl⟩

theorem At.word_eq (h : At D root it u w v) : it.word = w := by
  obtain ⟨fwd, anc, s, hsits, -, -, rfl, -⟩ := h
  exact hsits.word

theorem At.root_eq (h : At D root it u w v) : it.root = root := by
  obtain ⟨fwd, anc, s, hsits, -, -, -, -⟩ := h
  exact hsits.root

variable (hacyclic : D.Acyclic)

include hacyclic

/-- The words before and behind make up the list. -/
theorem At.words_eq (h : At D root it u w v) : D.words root = u ++ w :: v := by
  obtain ⟨fwd, anc, s, hsits, hterm, rfl, rfl, rfl⟩ := h
  rw [words_split hacyclic hsits.path, ZDfa.own, if_pos hterm]
  rfl

variable (hlive : D.Live)

include hlive

/-- **`incr` GOES TO THE NEXT WORD**, or out of the list behind the last one. -/
theorem At.incr (h : At D root it u w v) :
    (v = [] ∧ ∃ it', it.incr D = some (it', false) ∧ it'.layers = [] ∧ it'.root = root) ∨
    ∃ w' v' it', v = w' :: v' ∧ it.incr D = some (it', true) ∧ At D root it' (u ++ [w]) w' v' := by
  have hwords := h.words_eq hacyclic
  obtain ⟨fwd, anc, s, hsits, hterm, rfl, rfl, rfl⟩ := h
  have hturn : Sits D root it.turnForward true anc s (0 : Nat) := by
    cases fwd with
    | false => exact hsits.turnForward
    | true =>
      have hsame : it.turnForward = it := if_pos hsits.forward
      rw [hsame]
      exact hsits
  rcases incr_spec hacyclic hlive hturn (zero_le _) with
    ⟨it', hincr, hlayers, hroot, hrest⟩ | ⟨it', anc', t, hincr, hsits', hterm', hrest⟩
  · exact .inl ⟨hrest, it', hincr, hlayers, hroot⟩
  have hat := at_of_sits hsits' hterm'
  have hwords' := hat.words_eq hacyclic
  -- both places have the same words behind them
  have hbefore : before D anc ++ [full D anc s] = before D anc' := by
    rw [hrest, hwords', append_cons (before D anc)] at hwords
    exact (append_cancel_right hwords).symm
  exact .inr ⟨_, _, it', hrest, hincr, hbefore ▸ hat⟩

/-- **`decr` GOES TO THE WORD BEFORE**, or out of the list before the first one. -/
theorem At.decr (h : At D root it u w v) :
    (u = [] ∧ ∃ it', it.decr D = some (it', false) ∧ it'.layers = [] ∧ it'.root = root) ∨
    ∃ u' w' it', u = u' ++ [w'] ∧ it.decr D = some (it', true) ∧ At D root it' u' w' (w :: v) := by
  have hwords := h.words_eq hacyclic
  obtain ⟨fwd, anc, s, hsits, hterm, rfl, rfl, rfl⟩ := h
  have hturn : Sits D root it.turnBackward false anc s (-1) := by
    cases fwd with
    | true => exact hsits.turnBackward
    | false =>
      have hsame : it.turnBackward = it :=
        if_neg (by rw [hsits.forward]; exact Bool.false_ne_true)
      rw [hsame]
      exact hsits
  rcases decr_spec hacyclic hlive hturn (climbDecr_spec hsits.path).2 with
    ⟨it', hdecr, hlayers, hroot, hbefore⟩ | ⟨it', anc', t, hdecr, hsits', hterm', hbefore⟩
  · exact .inl ⟨hbefore, it', hdecr, hlayers, hroot⟩
  have hat := at_of_sits hsits' hterm'
  have hwords' := hat.words_eq hacyclic
  -- both places have the same words before them
  have hrest : rest D anc' t 0 = full D anc s :: rest D anc s 0 := by
    rw [hbefore, hwords', append_assoc] at hwords
    exact (cons.inj (append_cancel_left hwords)).2
  exact .inr ⟨_, _, it', hbefore, hdecr, hrest ▸ hat⟩

end

/-! ## Comparing with a key -/

/-- The comparison with an edge string decides for all that follows. -/
theorem matchZpath_spec (key zs : List Nat) :
    match matchZpath key zs with
    | .lt => ∀ v, key < zs ++ v
    | .gt => ∀ v, zs ++ v < key
    | .eq => key <+: zs ∨ zs <+: key := by
  induction key generalizing zs with
  | nil =>
    cases zs <;> exact .inl nil_prefix
  | cons c key ih =>
    cases zs with
    | nil => exact .inr nil_prefix
    | cons z zs =>
      rw [matchZpath]
      rcases lt_trichotomy c z with hlt | rfl | hgt
      · rw [if_pos hlt]
        exact fun v => List.Lex.rel hlt
      · rw [if_neg (lt_irrefl c), if_neg (lt_irrefl c)]
        have h := ih zs
        revert h
        cases matchZpath key zs with
        | lt => exact fun h v => List.Lex.cons (h v)
        | gt => exact fun h v => List.Lex.cons (h v)
        | eq =>
          rintro (h | h)
          · exact .inl (prefix_cons_inj c |>.mpr h)
          · exact .inr (prefix_cons_inj c |>.mpr h)
      · rw [if_neg (lt_asymm hgt), if_pos hgt]
        exact fun v => List.Lex.rel hgt

/-- Where the key is, seen from a state that is reached by its first letters. -/
theorem compareZpath_spec {pre key : List Nat} (hpre : pre <+: key) (s : Nat) :
    match compareZpath D s key pre.length with
    | .here => ∀ v, key ≤ pre ++ D.zdata s ++ v
    | .behind => ∀ v, pre ++ D.zdata s ++ v < key
    | .below pos => pos = (pre ++ D.zdata s).length ∧
        ∃ c k, key = pre ++ D.zdata s ++ c :: k := by
  obtain ⟨k, rfl⟩ := hpre
  rw [compareZpath, ZDfa.zdata]
  cases D.zpath s with
  | none =>
    dsimp only
    rw [Option.getD_none, append_nil]
    cases k with
    | nil =>
      rw [if_pos (congrArg _ (append_nil _))]
      intro v
      rw [append_nil]
      exact le_append pre v
    | cons c k =>
      rw [if_neg (by rw [length_append, length_cons]; omega)]
      exact ⟨rfl, c, k, rfl⟩
  | some zs =>
    dsimp only
    rw [Option.getD_some, drop_left]
    have hmatch := matchZpath_spec k zs
    revert hmatch
    cases matchZpath k zs with
    | lt =>
      intro h v
      rw [append_assoc]
      exact le_of_lt (append_lt_append (h v))
    | gt =>
      intro h v
      rw [append_assoc]
      exact append_lt_append (h v)
    | eq =>
      intro h
      have hlen : (pre ++ k).length - pre.length = k.length := by
        rw [length_append, Nat.add_sub_cancel_left]
      rw [hlen]
      by_cases hle : k.length ≤ zs.length
      · -- the key ends inside the string
        rw [if_pos hle]
        have hprefix : k <+: zs := by
          rcases h with h | h
          · exact h
          · rw [h.eq_of_length_le hle]
        obtain ⟨r, rfl⟩ := hprefix
        intro v
        rw [append_assoc, append_assoc, ← append_assoc]
        exact le_append _ _
      rw [if_neg hle]
      have hprefix : zs <+: k := by
        rcases h with h | h
        · exact absurd h.length_le hle
        · exact h
      obtain ⟨r, rfl⟩ := hprefix
      cases r with
      | nil => exact absurd (le_of_eq (congrArg _ (append_nil zs))) hle
      | cons c r =>
        refine ⟨length_append.symm, c, r, ?_⟩
        rw [append_assoc]

/-- `lower_bound_ex` splits the transitions at the letter. -/
theorem lowerBoundEx_spec {ms : List (Nat × Nat)} (hms : Ascending ms) (uch : Nat) :
    ∃ low, lowerBoundEx ms uch = some low ∧ low ≤ ms.length ∧
      (∀ m ∈ ms.take low, m.1 < uch) ∧ ∀ m ∈ ms.drop low, uch ≤ m.1 := by
  -- the letters below `uch` come first
  have hcount := Search.count_eq_of_sorted (p := fun m : Nat × Nat => decide (m.1 < uch))
    (hms.imp (fun hlt hb => decide_eq_true (hlt.trans (of_decide_eq_true hb))))
  generalize hlow : ms.countP (fun m => decide (m.1 < uch)) = low at hcount
  have hle : low ≤ ms.length := hlow ▸ countP_le_length
  refine ⟨low, ?_, hle, fun m hm => ?_, fun m hm => ?_⟩
  · refine Search.upperBound_eq (zero_le _) hle (fun k _ hk => ?_)
    rw [getElem?_eq_getElem hk, Option.map_some, hcount k hk]
  · obtain ⟨j, hj, rfl⟩ := mem_take_iff_getElem.mp hm
    exact of_decide_eq_true ((hcount j (by omega)).trans (decide_eq_true (by omega)))
  · obtain ⟨j, hj, rfl⟩ := mem_drop_iff_getElem.mp hm
    refine not_lt.mp (of_decide_eq_false ((hcount _ (by omega)).trans ?_))
    exact decide_eq_false (by omega)

/-! ## Seeking -/

/-- After a seek: at the first word that is not before the key, or outside if there is none. -/
def Landed (D : ZDfa) (root : Nat) (key : List Nat) (it : Iter) : Bool → Prop
  | true => ∃ u w v, At D root it u w v ∧ (∀ x ∈ u, x < key) ∧ key ≤ w
  | false => it.layers = [] ∧ it.root = root ∧ ∀ x ∈ D.words root, x < key

section

variable (hacyclic : D.Acyclic) (hlive : D.Live) {root : Nat} {key : List Nat} {it : Iter}

include hacyclic hlive

/-- When the words up to a cursor are before the key and the others are not, `incr` lands. -/
theorem landed_incr {i : Nat} (h : Sits D root it true anc s i) (hi : i ≤ (D.moves s).length)
    (hbefore : ∀ x ∈ upTo D anc s i, x < key) (hafter : ∀ x ∈ rest D anc s i, key ≤ x) :
    ∃ it' b, it.incr D = some (it', b) ∧ Landed D root key it' b := by
  have hsame : it.turnForward = it := if_pos h.forward
  have hwords := words_upTo hacyclic h.path i
  have hturn := h
  rw [← hsame] at hturn
  rcases incr_spec hacyclic hlive hturn hi with
    ⟨it', hincr, hlayers, hroot, hrest⟩ | ⟨it', anc', t, hincr, hsits, hterm, hrest⟩
  · refine ⟨it', false, hincr, hlayers, hroot, ?_⟩
    rw [hwords, hrest, append_nil]
    exact hbefore
  have hat := at_of_sits hsits hterm
  have hwords' := hat.words_eq hacyclic
  rw [hwords, hrest] at hwords'
  refine ⟨it', true, hincr, _, _, _, hat, ?_, ?_⟩
  · rw [← append_cancel_right hwords']
    exact hbefore
  · refine hafter _ ?_
    rw [hrest]
    exact mem_cons_self

section Round

variable (henter : Enters D root it true anc s) (hbefore : ∀ x ∈ before D anc, x < key)
  (hafter : ∀ x ∈ after D anc, key ≤ x)

include henter hbefore hafter

/-- The key ends in the string of the state: its words are not before the key. -/
theorem landed_here (hkey : ∀ v, key ≤ full D anc s ++ v) :
    ∃ it' b, (if D.term s then some ({ it.push D s 0 with curr := some s }, true)
      else Iter.incr D { it.push D s 0 with curr := some s }) = some (it', b) ∧
        Landed D root key it' b := by
  by_cases hterm : D.term s = true
  · -- the word of the state is the first one
    rw [if_pos hterm]
    have hat := at_of_sits (f := true) ((henter.push 0).mark (some s)) hterm
    refine ⟨_, true, rfl, _, _, _, hat, hbefore, ?_⟩
    have h := hkey []
    rwa [append_nil] at h
  rw [if_neg hterm]
  refine landed_incr hacyclic hlive ((henter.push 0).mark (some s)) (zero_le _) ?_ ?_
  · intro x hx
    rcases mem_upTo.mp hx with hx | ⟨ht, -⟩ | ⟨m, hm, -⟩
    · exact hbefore x hx
    · exact absurd ht hterm
    · cases hm
  · intro x hx
    rcases mem_rest.mp hx with ⟨m, -, v, -, rfl⟩ | hx
    · exact hkey _
    · exact hafter x hx

/-- All words of the state are before the key. -/
theorem landed_behind (hkey : ∀ v, full D anc s ++ v < key) :
    ∃ it' b, (it.push D s (D.moves s).length).incr D = some (it', b) ∧
      Landed D root key it' b := by
  refine landed_incr hacyclic hlive (henter.push _) le_rfl ?_ ?_
  · intro x hx
    rcases mem_upTo.mp hx with hx | ⟨-, rfl⟩ | ⟨m, -, v, -, rfl⟩
    · exact hbefore x hx
    · have h := hkey []
      rwa [append_nil] at h
    · exact hkey _
  · rw [rest_end le_rfl]
    exact hafter

end Round

section Letter

variable {uch i : Nat} {k : List Nat} (hkey : key = full D anc s ++ uch :: k)

include hkey

omit hacyclic hlive in
/-- The word of a state above the key's path is smaller. -/
theorem full_lt_key : full D anc s < key := by
  rw [hkey]
  exact lt_append_cons

omit hacyclic hlive in
/-- Words with a smaller letter behind the state are before the key. -/
theorem upTo_lt_key (hbefore : ∀ x ∈ before D anc, x < key)
    (htake : ∀ m ∈ (D.moves s).take i, m.1 < uch) : ∀ x ∈ upTo D anc s i, x < key := by
  intro x hx
  rcases mem_upTo.mp hx with hx | ⟨-, rfl⟩ | ⟨m, hm, v, -, rfl⟩
  · exact hbefore x hx
  · exact full_lt_key hkey
  · rw [hkey]
    exact append_cons_lt (htake m hm)

omit hacyclic hlive in
/-- Words with a larger letter behind the state are not. -/
theorem key_le_rest (hafter : ∀ x ∈ after D anc, key ≤ x)
    (hdrop : ∀ m ∈ (D.moves s).drop i, uch < m.1) : ∀ x ∈ rest D anc s i, key ≤ x := by
  intro x hx
  rcases mem_rest.mp hx with ⟨m, hm, v, -, rfl⟩ | hx
  · rw [hkey]
    exact le_of_lt (append_cons_lt (hdrop m hm))
  · exact hafter x hx

/-- A leaf: its word is shorter than the key. -/
theorem landed_leaf (henter : Enters D root it true anc s)
    (hbefore : ∀ x ∈ before D anc, x < key) (hafter : ∀ x ∈ after D anc, key ≤ x)
    (hleaf : (D.moves s).length = 0) :
    (it.push D s 0).word.length < key.length ∧
      ∃ it' b, Iter.incr D { it.push D s 0 with curr := some s } = some (it', b) ∧
        Landed D root key it' b := by
  have hword : (it.push D s 0).word = full D anc s := (henter.push 0).word
  constructor
  · rw [hword, hkey, length_append]
    exact Nat.lt_add_of_pos_right (succ_pos _)
  · refine landed_incr hacyclic hlive ((henter.push 0).mark (some s)) (zero_le _)
      (upTo_lt_key hkey hbefore (by simp)) ?_
    rw [rest_end hleaf.le]
    exact hafter

end Letter

/-- The loop of `set_to_lower_bound`, entered with the first letters of the key matched. -/
theorem lowerBoundLoop_spec {fuel : Nat} (henter : Enters D root it true anc s)
    (hpre : pathWord D anc <+: key) (hbefore : ∀ x ∈ before D anc, x < key)
    (hafter : ∀ x ∈ after D anc, key ≤ x) (hfuel : key.length - (pathWord D anc).length < fuel) :
    ∃ it' b, lowerBoundLoop D key fuel it s (pathWord D anc).length = some (it', b) ∧
      Landed D root key it' b := by
  induction fuel generalizing it anc s with
  | zero => cases hfuel
  | succ fuel ih =>
    have hplace := compareZpath_spec (D := D) hpre s
    rw [lowerBoundLoop]
    revert hplace
    cases compareZpath D s key (pathWord D anc).length with
    | here => exact landed_here hacyclic hlive henter hbefore hafter
    | behind => exact landed_behind hacyclic hlive henter hbefore hafter
    | below pos =>
      rintro ⟨hpos, uch, k, hkey⟩
      dsimp only
      by_cases hleaf : (D.moves s).length = 0
      · obtain ⟨hlen, hland⟩ := landed_leaf hacyclic hlive hkey henter hbefore hafter hleaf
        rw [if_pos hleaf, if_neg hlen.ne, if_pos hlen]
        exact hland
      obtain ⟨low, hlow, hle, hlo, hhi⟩ := lowerBoundEx_spec (D.ascending s) uch
      have hget : key[pos]? = some uch := by
        rw [hkey, hpos, getElem?_append_right le_rfl, Nat.sub_self]
        rfl
      rw [if_neg hleaf, hget, Option.bind_some, hlow, Option.bind_some]
      have hupTo := upTo_lt_key hkey hbefore hlo
      -- no letter from the key's on: the words behind the state follow
      cases hat : (D.moves s)[low]? with
      | none =>
        refine landed_incr hacyclic hlive (henter.push low) hle hupTo
          (key_le_rest hkey hafter ?_)
        rw [drop_eq_nil_of_le (getElem?_eq_none_iff.mp hat)]
        exact forall_mem_nil _
      | some m =>
        obtain ⟨hlt, hm⟩ := List.getElem_of_getElem? hat
        have hdrop : (D.moves s).drop low = m :: (D.moves s).drop (low + 1) := by
          rw [drop_eq_getElem_cons hlt, hm]
        have hsorted : Ascending ((D.moves s).drop low) := (D.ascending s).drop
        rw [hdrop] at hsorted hhi
        obtain ⟨hfirst, -⟩ := pairwise_cons.mp hsorted
        dsimp only
        by_cases huch : uch = m.1
        · -- the letter is there, and the loop goes on behind it
          subst huch
          have hsits : Sits D root (it.push D s (low + 1 : Nat)) true anc s (low + lead true) :=
            henter.push (low + 1 : Nat)
          have hpos' : (pathWord D (⟨s, low, m.1⟩ :: anc)).length = pos + 1 := by
            rw [hpos, pathWord, length_append, length_singleton]
          have hlength := congrArg length hkey
          rw [length_append, length_cons] at hlength
          have hstart : (pathWord D anc).length ≤ pos := by
            rw [hpos, length_append]
            exact le_add_right _ _
          rw [if_pos rfl, ← hpos']
          refine ih (hsits.take hat) ⟨k, ?_⟩ hupTo (key_le_rest hkey hafter hfirst) (by omega)
          rw [hkey, pathWord, append_assoc, singleton_append]
        · rw [if_neg huch]
          have hm1 : uch < m.1 := lt_of_le_of_ne (hhi m mem_cons_self) huch
          refine landed_incr hacyclic hlive (henter.push low) hle hupTo
            (key_le_rest hkey hafter ?_)
          rw [hdrop]
          exact forall_mem_cons.mpr ⟨hm1, fun x hx => hm1.trans (hfirst x hx)⟩

/-- **`seek_lower_bound` LANDS AT THE FIRST WORD THAT IS NOT BEFORE THE KEY.** -/
theorem seekLowerBound_spec (it : Iter) (hroot : it.root = root) (key : List Nat) :
    ∃ it' b, it.seekLowerBound D key = some (it', b) ∧ Landed D root key it' b := by
  subst hroot
  have henter : Enters D it.root { it.reset1 it.root with isForward := true } true [] it.root :=
    ⟨rfl, rfl, rfl, rfl, rfl, rfl⟩
  exact lowerBoundLoop_spec hacyclic hlive henter nil_prefix (forall_mem_nil _) (forall_mem_nil _)
    (lt_succ_self _)

/-- **`seek_end` LANDS AT THE LAST WORD.** -/
theorem seekEnd_spec (it : Iter) (hroot : it.root = root) :
    (D.words root = [] ∧ ∃ it', it.seekEnd D = some (it', false) ∧ it'.layers = [] ∧
      it'.root = root) ∨
    ∃ u w it', it.seekEnd D = some (it', true) ∧ At D root it' u w [] := by
  subst hroot
  have henter : Enters D it.root { it.reset1 it.root with isForward := false } false [] it.root :=
    ⟨rfl, rfl, rfl, rfl, rfl, rfl⟩
  have hsits := henter.push (D.moves it.root).length
  have hwords := words_upTo hacyclic henter.path (D.moves it.root).length
  rw [rest_end le_rfl, Zpath.after, append_nil] at hwords
  rw [Iter.seekEnd]
  generalize Iter.push D _ it.root _ = start at hsits ⊢
  have hsame : start.turnBackward = start :=
    if_neg (by rw [hsits.forward]; exact Bool.false_ne_true)
  rw [← hsame] at hsits
  rcases decr_spec hacyclic hlive hsits ((climbDecr_spec henter.path).1 _ le_rfl) with
    ⟨it', hdecr, hlayers, hroot, hupTo⟩ | ⟨it', anc, t, hdecr, hsits', hterm, hupTo⟩
  · exact .inl ⟨hwords.trans hupTo, it', hdecr, hlayers, hroot⟩
  · have hat := at_of_sits hsits' hterm
    have hrest : rest D anc t 0 = [] := by
      have hwords' := hat.words_eq hacyclic
      rw [hwords, hupTo] at hwords'
      exact (cons.inj (append_cancel_left hwords')).2.symm
    exact .inr ⟨_, _, it', hdecr, hrest ▸ hat⟩

end

/-! ## The refinement -/

/-- The iterator is where the cursor is. -/
def Follows (D : ZDfa) (root : Nat) (it : Iter) : Option Nat → Prop
  | none => it.layers = [] ∧ it.root = root
  | some i => ∃ u w v, At D root it u w v ∧ i = u.length

variable {it : Iter}

theorem Follows.root_eq {root : Nat} {pos : Option Nat} (h : Follows D root it pos) :
    it.root = root := by
  cases pos with
  | none => exact h.2
  | some i =>
    obtain ⟨u, w, v, hat, -⟩ := h
    exact hat.root_eq

/-- A call shows the word at the place where the cursor goes, and the iterator follows it. -/
def CallFollows (D : ZDfa) (root : Nat) (it : Iter) (pos : Option Nat)
    (c : Cursor.Call (List Nat)) : Prop :=
  ∃ it', it.observe D c = some (it', Cursor.entry (D.words root)
      (Cursor.move (D.words root) pos c)) ∧
    Follows D root it' (Cursor.move (D.words root) pos c)

section

variable (hacyclic : D.Acyclic) (hlive : D.Live) {root : Nat} {it' : Iter} {pos : Option Nat}
  {c : Cursor.Call (List Nat)}

include hacyclic

/-- A call that ends on a word follows the cursor. -/
theorem observe_at {u v : List (List Nat)} {w : List Nat} (hcall : it.call D c = some (it', true))
    (hat : At D root it' u w v) (hmove : Cursor.move (D.words root) pos c = some u.length) :
    CallFollows D root it pos c := by
  rw [CallFollows, hmove]
  refine ⟨it', ?_, u, w, v, hat, rfl⟩
  rw [Iter.observe, hcall, hat.words_eq hacyclic, Cursor.entry_split, ← hat.word_eq]
  rfl

omit hacyclic in
/-- A call that ends nowhere follows the cursor. -/
theorem observe_outside (hcall : it.call D c = some (it', false)) (hlayers : it'.layers = [])
    (hroot : it'.root = root) (hmove : Cursor.move (D.words root) pos c = none) :
    CallFollows D root it pos c := by
  rw [CallFollows, hmove]
  refine ⟨it', ?_, hlayers, hroot⟩
  rw [Iter.observe, hcall]
  rfl

include hlive

/-- `seek_lower_bound` follows the cursor. -/
theorem seek_follows (h : Follows D root it pos) (key : List Nat) :
    CallFollows D root it pos (.seek key) := by
  obtain ⟨it', b, hcall, hlanded⟩ := seekLowerBound_spec hacyclic hlive it h.root_eq key
  cases b with
  | true =>
    obtain ⟨u, w, v, hat, hbefore, hkey⟩ := hlanded
    refine observe_at hacyclic hcall hat ?_
    rw [hat.words_eq hacyclic]
    exact Cursor.move_seek_split hbefore hkey pos
  | false =>
    obtain ⟨hlayers, hroot, hbefore⟩ := hlanded
    exact observe_outside hcall hlayers hroot (Cursor.move_seek_none hbefore pos)

/-- Every call of the iterator moves it to where the cursor goes. -/
theorem call_follows (it : Iter) (pos : Option Nat) (c : Cursor.Call (List Nat))
    (h : Follows D root it pos) : CallFollows D root it pos c := by
  cases c with
  | seek key => exact seek_follows hacyclic hlive h key
  | first =>
    -- no word is before the empty key
    have hseek := seek_follows hacyclic hlive h []
    rw [CallFollows, Cursor.move_seek_least (fun x _ => le_append [] x)] at hseek
    exact hseek
  | last =>
    rcases seekEnd_spec hacyclic hlive it h.root_eq with
      ⟨hwords, it', hcall, hlayers, hroot⟩ | ⟨u, w, it', hcall, hat⟩
    · exact observe_outside hcall hlayers hroot (if_pos hwords)
    · refine observe_at hacyclic hcall hat ?_
      rw [hat.words_eq hacyclic]
      show (if u ++ [w] = [] then none else some _) = _
      rw [if_neg (append_ne_nil_of_right_ne_nil _ (cons_ne_nil _ _)), length_append]
      rfl
  | next =>
    cases pos with
    | none => exact observe_outside (if_pos h.1) h.1 h.2 rfl
    | some i =>
      obtain ⟨u, w, v, hat, rfl⟩ := h
      rcases hat.incr hacyclic hlive with
        ⟨rfl, it', hcall, hlayers, hroot⟩ | ⟨w', v', it', rfl, hcall, hat'⟩
      · refine observe_outside hcall hlayers hroot ?_
        rw [hat.words_eq hacyclic]
        exact Cursor.move_next_last u w
      · refine observe_at hacyclic hcall hat' ?_
        rw [hat.words_eq hacyclic]
        exact Cursor.move_next_split u v' w w'
  | prev =>
    cases pos with
    | none => exact observe_outside (if_pos h.1) h.1 h.2 rfl
    | some i =>
      obtain ⟨u, w, v, hat, rfl⟩ := h
      rcases hat.decr hacyclic hlive with
        ⟨rfl, it', hcall, hlayers, hroot⟩ | ⟨u', w', it', rfl, hcall, hat'⟩
      · exact observe_outside hcall hlayers hroot rfl
      · refine observe_at hacyclic hcall hat' ?_
        exact Cursor.move_prev_split u' v w w'

end

/-- **THE ITERATOR TRACKS THE SORTED LIST OF WORDS**: an acyclic automaton whose states all
    reach a final state has a list of its words in strictly ascending order, and whatever the
    calls, each call returns true and shows the word at the place where a cursor in this list
    goes, or returns false when the cursor leaves the list or has left it. -/
theorem lex_iterator_tracks_words (D : ZDfa) (hacyclic : D.Acyclic) (hlive : D.Live) (root : Nat)
    (hroot : root < D.states) :
    ∃ l : List (List Nat), l ≠ [] ∧ l.Pairwise (· < ·) ∧
      (∀ w, w ∈ l ↔ D.accepts root w = true) ∧
      ∀ calls : List (Cursor.Call (List Nat)),
        Cursor.watch (Iter.observe D) (Iter.new root) calls =
          some (Cursor.observe l none calls) := by
  refine ⟨D.words root, ?_, hacyclic.words_sorted root, hacyclic.mem_words root, fun calls => ?_⟩
  · intro hnil
    obtain ⟨w, hw⟩ := hlive root hroot
    have hmem := (hacyclic.mem_words root w).mpr hw
    rw [hnil] at hmem
    cases hmem
  · have hnew : Follows D root (Iter.new root) none := ⟨rfl, rfl⟩
    exact Cursor.watch_eq_observe (call_follows hacyclic hlive) hnew calls

/-- The words `a` and `abc`, the end of the second one compressed. -/
def twoWords : ZDfa where
  states := 3
  moves := fun s => if s = 0 then [(97, 1)] else if s = 1 then [(98, 2)] else []
  term := fun s => s == 1 || s == 2
  zpath := fun s => if s = 2 then some [99] else none
  ascending := by
    intro s
    split
    · exact pairwise_singleton _ _
    · split
      · exact pairwise_singleton _ _
      · exact List.Pairwise.nil
  targets := by
    intro s
    split
    · decide
    · split
      · decide
      · intro m hm
        cases hm

/-- The small example has no cycle. -/
theorem twoWords_acyclic : twoWords.Acyclic := by
  have hup : ∀ s t, twoWords.Edge s t → s < t := by
    rintro s t ⟨c, hc⟩
    have hmoves : twoWords.moves s =
      if s = 0 then [(97, 1)] else if s = 1 then [(98, 2)] else [] := rfl
    rw [hmoves] at hc
    split at hc
    · cases mem_singleton.mp hc
      omega
    · split at hc
      · cases mem_singleton.mp hc
        omega
      · cases hc
  have hlt : ∀ s t, Relation.TransGen twoWords.Edge s t → s < t := by
    intro s t h
    induction h with
    | single h => exact hup _ _ h
    | tail _ h ih => exact ih.trans (hup _ _ h)
  exact fun s h => lt_irrefl s (hlt s s h)

theorem twoWords_live : twoWords.Live := by
  intro s hs
  have hs3 : s < 3 := hs
  match s, hs3 with
  | 0, _ => exact ⟨[97], by decide⟩
  | 1, _ => exact ⟨[], by decide⟩
  | 2, _ => exact ⟨[99], by decide⟩

/-- All calls on an automaton with two words. -/
theorem lex_iterator_tracks_two_words :
    ∃ l : List (List Nat), l ≠ [] ∧ l.Pairwise (· < ·) ∧
      (∀ w, w ∈ l ↔ twoWords.accepts 0 w = true) ∧
      ∀ calls : List (Cursor.Call (List Nat)),
        Cursor.watch (Iter.observe twoWords) (Iter.new 0) calls =
          some (Cursor.observe l none calls) :=
  lex_iterator_tracks_words twoWords twoWords_acyclic twoWords_live 0 (by decide)

end LexIter
