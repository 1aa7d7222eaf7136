import ToplingArk.TrieIterSeekProofs

/-! # The iterator of a nested LOUDS trie — when it is right

    Every call of the iterator makes the move of a cursor in the set of strings, whatever
    calls came before, if every edge string has at least two bytes.  `initIterEntry` assumes
    as much, and what follows from a false assumption is undefined: a shorter edge string
    makes every seek along it undefined. -/

namespace NestLouds

open BitCount LevelTree Patricia Zpath WordCursor List

variable {t : Trie} {room : IterRoom} {P : PTree} {c : Call} {r : Ret} {z : List Nat}

/-- The iterator stands nowhere, or at the string of a terminal state with its path on the
    stack. -/
def Placed (P : PTree) (it : Iter) : Prop :=
  it.stack = [] ∨ ∃ anc s, Leads P.zdfa 0 anc s ∧ P.term s = true ∧ it = iterAt P anc s

variable {it : Iter} {anc : List Anc} {s : Nat}

theorem stands_nowhere (h : it.stack = []) : it.stands = none := if_pos h

/-- The strings before and behind a terminal state. -/
theorem strings_around (hs : Leads P.zdfa 0 anc s) (hterm : P.term s = true) :
    P.strings = before P.zdfa anc ++ full P.zdfa anc s :: rest P.zdfa anc s 0 := by
  have h := words_split acyclic hs
  rw [ZDfa.own, if_pos (show P.zdfa.term s = true from hterm)] at h
  exact h

/-- A call that leaves the trie makes its move. -/
theorem makes_nowhere {it' : Iter} (hcall : t.call room it c = some (it', r))
    (hstack : it'.stack = []) (hmove : Moves P.strings it.stands c r none) :
    Makes (t.call room) Iter.stands P.strings (Placed P) it c := by
  refine ⟨it', r, hcall, .inl hstack, ?_⟩
  rw [stands_nowhere hstack]
  exact hmove

/-- A call that ends on a string makes its move. -/
theorem makes_at (hcall : t.call room it c = some (iterAt P anc s, r)) (hs : Leads P.zdfa 0 anc s)
    (hterm : P.term s = true) (hmove : Moves P.strings it.stands c r (some (full P.zdfa anc s))) :
    Makes (t.call room) Iter.stands P.strings (Placed P) it c := by
  refine ⟨_, r, hcall, .inr ⟨anc, s, hs, hterm, rfl⟩, ?_⟩
  exact hmove

section Calls

variable (h : t.Carries P) (henter : Enterable t room P) {key : List Nat}

include h henter

/-- A seek goes to the least string that is no less than the key. -/
theorem call_lowerBound (it : Iter) (hkey : ∀ b ∈ key, b < 256) :
    Makes (t.call room) Iter.stands P.strings (Placed P) it (.lowerBound key) := by
  have hroot : Leads P.zdfa 0 [] 0 := rfl
  obtain ⟨res, U, V, hres, hsplit, hreach⟩ := seekLoop_spec h henter hroot hkey (Nat.lt_succ_self _)
  have hcall : t.call room it (.lowerBound key) =
      some ((Trie.land it res).1, .flag (Trie.land it res).2) := by
    show ((t.seekLoop room _ 0 (stackOf P []) (pathWord P.zdfa []) key).bind _).map _ = _
    rw [hres]
    rfl
  cases res with
  | none =>
    obtain rfl : V = [] := hreach
    refine makes_nowhere hcall rfl (.beyond (fun x hx => ?_))
    rw [hsplit.strings, append_nil] at hx
    exact hsplit.before x hx
  | some it' =>
    obtain ⟨anc, s, hs, hterm, rfl, rfl⟩ := hreach
    exact makes_at hcall hs hterm (moves_lowerBound strings_sorted hsplit.strings hsplit.before
      (hsplit.behind _ mem_cons_self))

/-- `seek_end` -/
theorem call_last (it : Iter) :
    Makes (t.call room) Iter.stands P.strings (Placed P) it .last := by
  obtain ⟨it', hend, anc, s, hs, hterm, rfl, hall⟩ := seekEnd_spec h henter it
  exact makes_at (congrArg (Option.map _) hend) hs hterm (moves_last strings_sorted hall)

/-- `incr` -/
theorem call_next (hit : Placed P it) :
    Makes (t.call room) Iter.stands P.strings (Placed P) it .next := by
  rcases hit with hnowhere | ⟨anc, s, hs, hterm, rfl⟩
  · have hincr : t.incr room it = some (it, false) := by
      unfold Trie.incr
      rw [hnowhere]
    refine makes_nowhere (congrArg (Option.map _) hincr) hnowhere ?_
    rw [stands_nowhere hnowhere]
    exact .nowhereNext
  obtain ⟨r, hincr, hreach⟩ := incr_spec h henter hs
  have haround := strings_around hs hterm
  have hcall : t.call room (iterAt P anc s) .next = some ((Trie.land (iterAt P anc s) r).1,
      .flag (Trie.land (iterAt P anc s) r).2) := congrArg (Option.map _) hincr
  cases r with
  | none =>
    rw [show rest P.zdfa anc s 0 = [] from hreach] at haround
    exact makes_nowhere hcall rfl (moves_next_last strings_sorted haround)
  | some it' =>
    obtain ⟨anc', s', hs', hterm', rfl, hrest⟩ := hreach
    rw [hrest] at haround
    exact makes_at hcall hs' hterm' (moves_next strings_sorted haround)

/-- `decr` -/
theorem call_prev (hit : Placed P it) :
    Makes (t.call room) Iter.stands P.strings (Placed P) it .prev := by
  rcases hit with hnowhere | ⟨anc, s, hs, hterm, rfl⟩
  · have hdecr : t.decr room it = some (it, false) := by
      unfold Trie.decr
      rw [hnowhere]
    refine makes_nowhere (congrArg (Option.map _) hdecr) hnowhere ?_
    rw [stands_nowhere hnowhere]
    exact .nowherePrev
  obtain ⟨r, hdecr, hreach⟩ := decr_spec h henter hs
  have haround := strings_around hs hterm
  have hcall : t.call room (iterAt P anc s) .prev = some ((Trie.land (iterAt P anc s) r).1,
      .flag (Trie.land (iterAt P anc s) r).2) := congrArg (Option.map _) hdecr
  cases r with
  | none =>
    rw [show before P.zdfa anc = [] from hreach] at haround
    exact makes_nowhere hcall rfl (moves_prev_first strings_sorted haround)
  | some it' =>
    obtain ⟨anc', s', hs', hterm', rfl, hbefore⟩ := hreach
    rw [hbefore, append_assoc] at haround
    exact makes_at hcall hs' hterm' (moves_prev strings_sorted haround)

/-- `seek_max_prefix` goes to the longest string that is a prefix of the key. -/
theorem call_maxPrefix (it : Iter) (hkey : ∀ b ∈ key, b < 256) :
    Makes (t.call room) Iter.stands P.strings (Placed P) it (.maxPrefix key) := by
  have hroot : Leads P.zdfa 0 [] 0 := rfl
  have hstart : Best P key (before P.zdfa []) Iter.start := .inl ⟨rfl, fun x hx => nomatch hx⟩
  obtain ⟨best, n, hloop, hbest, hmatched⟩ := maxPrefixLoop_spec h henter hroot
    (show key = pathWord P.zdfa [] ++ key from rfl) hkey (Nat.lt_succ_self _) hstart
  have hcall : t.call room it (.maxPrefix key) = some (best, .length n) := by
    show (t.maxPrefixLoop room _ 0 (stackOf P []) (pathWord P.zdfa []) key _).map _ = _
    rw [hloop]
    rfl
  rcases hbest with ⟨hstack, hnone⟩ | ⟨anc, s, hs, hterm, rfl, hpre, hlong⟩
  · exact makes_nowhere hcall hstack (.noPrefix hmatched hnone)
  · refine makes_at hcall hs hterm (.onPrefix hmatched ?_ hpre hlong)
    rw [strings_around hs hterm]
    exact mem_append_right _ mem_cons_self

/-- **EVERY CALL MAKES THE MOVE OF THE CURSOR.** -/
theorem call_moves (it : Iter) (c : Call) (hit : Placed P it) (hbytes : c.Bytes) :
    Makes (t.call room) Iter.stands P.strings (Placed P) it c := by
  cases c with
  | lowerBound key => exact call_lowerBound h henter it hbytes
  | last => exact call_last h henter it
  | next => exact call_next h henter hit
  | prev => exact call_prev h henter hit
  | maxPrefix key => exact call_maxPrefix h henter it hbytes

end Calls

/-! ## Short edge strings -/

/-- Every node can be reached from the root. -/
theorem exists_leads (hs : s < P.size) : ∃ anc, Leads P.zdfa 0 anc s := by
  induction s using Nat.strong_induction_on with
  | _ s ih =>
    rcases Nat.eq_zero_or_pos s with rfl | hpos
    · exact ⟨[], rfl⟩
    · have hlt := parent_lt_self (T := P.toLTree) hpos hs
      have h1 := first_parent_le (T := P.toLTree) hpos
      have h2 := lt_first_parent_succ hs
      obtain ⟨anc, hanc⟩ := ih _ hlt (hlt.trans hs)
      have hchild := leads_child hanc (hlt.trans hs) (i := s - P.first (P.parent s)) (by omega)
      rw [Nat.add_sub_cancel' h1] at hchild
      exact ⟨_, hchild⟩

theorem meet_append (z w : List Nat) : meet z (z ++ w) = .rest w := by
  induction z with
  | nil => rfl
  | cons c z ih =>
    show (if c = c then meet z (z ++ w) else _) = _
    rw [if_pos rfl, ih]

theorem bytes_pathWord (hs : Leads P.zdfa 0 anc s) : ∀ b ∈ pathWord P.zdfa anc, b < 256 := by
  induction anc generalizing s with
  | nil => exact fun b hb => nomatch hb
  | cons a anc ih =>
    obtain ⟨hparent, ha⟩ := hs
    obtain ⟨-, -, -, hch⟩ := child_eq ha
    intro b hb
    rcases mem_append.mp hb with hb | hb
    · rcases mem_append.mp hb with hb | hb
      · exact ih hparent b hb
      · cases hz : P.zpath a.parent with
        | none =>
          rw [show P.zdfa.zdata a.parent = [] from congrArg (Option.getD · []) hz] at hb
          cases hb
        | some z =>
          rw [show P.zdfa.zdata a.parent = z from congrArg (Option.getD · []) hz] at hb
          exact P.zbytes _ z hz b hb
    · rw [mem_singleton.mp hb, hch]
      exact P.byte s

theorem length_le_pathWord (anc : List Anc) : anc.length ≤ (pathWord P.zdfa anc).length := by
  induction anc with
  | nil => exact Nat.le_refl 0
  | cons a anc ih =>
    have hlen := length_pathWord_cons (P := P) a anc
    have hfull := length_full (P := P) anc a.parent
    rw [length_cons]
    omega

section Short

variable {maxStrlen : Nat} {layers : Layers} (h : t.Carries P) (hiter : t.Iterable P maxStrlen)
  (hinit : t.initForTerm = some layers)

include h hiter hinit

/-- A seek of a key that begins with a path follows the path, if it gets anywhere. -/
theorem seekLoop_path (hs : Leads P.zdfa 0 anc s) (fuel : Nat) (r : List Nat) :
    t.seekLoop (iterRoom layers maxStrlen) (anc.length + fuel) 0 [] [] (pathWord P.zdfa anc ++ r) =
        none ∨
      t.seekLoop (iterRoom layers maxStrlen) (anc.length + fuel) 0 [] []
          (pathWord P.zdfa anc ++ r) =
        t.seekLoop (iterRoom layers maxStrlen) fuel s (stackOf P anc) (pathWord P.zdfa anc) r := by
  induction anc generalizing s fuel r with
  | nil =>
    obtain rfl := hs
    rw [length_nil, Nat.zero_add]
    exact .inr rfl
  | cons a anc ih =>
    obtain ⟨hparent, ha⟩ := hs
    obtain ⟨hp, hi, rfl, hch⟩ := child_eq ha
    rw [pathWord_append, full, append_assoc, length_cons, Nat.add_assoc, Nat.add_comm 1]
    rcases ih hparent (fuel + 1) (P.zdfa.zdata a.parent ++ a.ch :: r) with hnone | heq
    · exact .inl hnone
    rw [heq, Trie.seekLoop, length_stackOf]
    -- a short edge string on the way makes the run undefined
    by_cases hshort : ∃ z, P.zpath a.parent = some z ∧ z.length < 2
    · obtain ⟨z, hz, hlen⟩ := hshort
      rw [initIterEntry_short h hp hz hlen]
      exact .inl rfl
    rw [initIterEntry_long h hiter hinit hparent
      (fun z hz => not_lt.mp (fun hlen => hshort ⟨z, hz, hlen⟩))]
    have hplace := place_letter (P := P) (s := a.parent) (c := P.first a.parent + a.idx)
      (Nat.le_add_right _ _) (by omega)
    rw [← hch] at hplace
    have hsearch : t.searchChild (P.first a.parent) (P.first (a.parent + 1) - P.first a.parent)
        a.ch = some (some (a.idx, true)) := by
      rw [searchChild_spec h hp (hch ▸ P.byte _)]
      unfold childAt
      rw [hplace, if_pos (by omega), Nat.add_sub_cancel_left,
        hasLetter_iff.mpr ⟨_, Nat.le_add_right _ _, by omega, hch.symm⟩]
    refine .inr ?_
    simp only [Option.bind_eq_bind, Option.bind_some, meet_append]
    show (t.searchChild (P.first a.parent) (P.first (a.parent + 1) - P.first a.parent) a.ch).bind
      _ = _
    rw [hsearch, Option.bind_some]
    show t.seekLoop (iterRoom layers maxStrlen) fuel (P.first a.parent + a.idx)
      ((entryOf P a.parent 0).setNth a.idx :: stackOf P anc) _ r = _
    rw [setNth_entryOf hi]
    rfl

/-- **A SEEK ALONG A SHORT EDGE STRING IS UNDEFINED.** -/
theorem seek_short_undefined (hs : Leads P.zdfa 0 anc s) (hz : P.zpath s = some z)
    (hshort : z.length < 2) :
    t.watchIter (iterRoom layers maxStrlen) [.lowerBound (pathWord P.zdfa anc)] = none := by
  have hlen := length_le_pathWord (P := P) anc
  obtain ⟨fuel, hfuel⟩ := exists_add_of_le hlen
  have hloop : t.seekLoop (iterRoom layers maxStrlen) ((pathWord P.zdfa anc).length + 1) 0 [] []
      (pathWord P.zdfa anc) = none := by
    have hpath := seekLoop_path h hiter hinit hs (fuel + 1) []
    rw [append_nil, ← Nat.add_assoc, ← hfuel] at hpath
    rcases hpath with hnone | heq
    · exact hnone
    · rw [heq, Trie.seekLoop, initIterEntry_short h (leads_lt hs) hz hshort]
      rfl
  have hcall : t.call (iterRoom layers maxStrlen) Iter.start (.lowerBound (pathWord P.zdfa anc)) =
      none := by
    show (t.seekLowerBound _ _ _).map _ = none
    unfold Trie.seekLowerBound
    rw [hloop]
    rfl
  unfold Trie.watchIter
  rw [watch, hcall]
  rfl

end Short

/-- **THE ITERATOR FOLLOWS A CURSOR IN THE SET OF STRINGS**, in every run of calls, exactly if every
    edge string has at least two bytes. -/
theorem trie_iterator_right_iff (t : Trie) (P : PTree) (hrep : t.Carries P)
    (S : List (List Nat)) (hsorted : S.Pairwise (· < ·)) (hS : ∀ w, w ∈ S ↔ P.accepts w = true)
    (layers : Layers) (hinit : t.initForTerm = some layers) (maxStrlen : Nat)
    (hiter : t.Iterable P maxStrlen) :
    (∀ calls : List Call, (∀ c ∈ calls, c.Bytes) →
      ∃ shown, t.watchIter (iterRoom layers maxStrlen) calls = some shown ∧
        Shows S none calls shown) ↔
      ∀ s z, s < P.size → P.zpath s = some z → 2 ≤ z.length := by
  rw [← strings_eq hsorted hS]
  constructor
  · intro hall s z hs hz
    by_contra hshort
    obtain ⟨anc, hanc⟩ := exists_leads hs
    obtain ⟨shown, hshown, -⟩ := hall [.lowerBound (pathWord P.zdfa anc)]
      (fun c hc => by
        rw [mem_singleton.mp hc]
        exact bytes_pathWord hanc)
    rw [seek_short_undefined hrep hiter hinit hanc hz (not_le.mp hshort)] at hshown
    cases hshown
  · intro hlong calls hbytes
    have henter := enterable hrep hiter hinit hlong
    have hstart : Placed P Iter.start := .inl rfl
    exact shows_of_moves (call_moves hrep henter) hstart calls hbytes

/-! ## Two tries -/

/-- The tree of the strings "a", "abbc", "ac" and "bxyz", with two edge strings. -/
def fourStrings : PTree where
  deg := [2, 2, 0, 0, 0]
  ahead := by decide
  whole := rfl
  letter := fun c => if c = 1 then 97 else if c = 4 then 99 else 98
  zpath := fun s => if s = 2 then some [120, 121, 122] else if s = 3 then some [98, 99] else none
  term := fun s => s != 0
  ascending := ascending_of_nodes (by decide)
  byte := fun c => by
    split_ifs <;> decide
  zbytes := fun c z h => by
    split_ifs at h <;> cases h <;> decide
  leaves := by decide
  root := rfl

/-- The layers of the small trie. -/
def fourLayers : Layers :=
  ⟨[(0, 0), (1, 0), (3, 2)], [⟨0, 1, 0⟩, ⟨1, 3, 0⟩, ⟨3, 5, 0⟩], 1, 2⟩

/-- The strings of the small trie. -/
def fourWords : List (List Nat) := [[97], [97, 98, 98, 99], [97, 99], [98, 120, 121, 122]]

/-- A run that seeks between the strings, goes over both ends and matches a part of an edge
    string. -/
def fourCalls : List Call :=
  [.lowerBound [97, 98], .prev, .prev, .lowerBound [97, 97], .next, .next, .next, .last, .prev,
    .maxPrefix [98, 120, 121, 97], .maxPrefix [97, 98, 98, 99, 99]]

/-- Calls of all kinds on a trie of four strings. -/
theorem trie_iterator_four :
    ∃ shown, (trieOf fourStrings).watchIter (iterRoom fourLayers 4) fourCalls = some shown ∧
      Shows fourWords none fourCalls shown := by
  have hstrings : fourStrings.strings = fourWords := by decide
  have hz : ∀ s z, fourStrings.zpath s = some z → 2 ≤ z.length ∧ z.length < 2 ^ 8 := by
    intro s z h
    dsimp only [fourStrings] at h
    split_ifs at h <;> cases h <;> decide
  have hiter : (trieOf fourStrings).Iterable fourStrings 4 :=
    { states := by decide, zlen := fun s z _ h => (hz s z h).2,
      strlen := by rw [hstrings]; decide, width := by decide }
  exact (trie_iterator_right_iff (trieOf fourStrings) fourStrings (trieOf_carries (by decide))
    fourWords (by decide) (fun w => by rw [← hstrings, mem_strings]) fourLayers rfl 4 hiter).mpr
      (fun s z _ h => (hz s z h).1) fourCalls (by simp [fourCalls, Call.Bytes])

/-- The tree of the string "ab", whose edge string has one byte. -/
def oneEdge : PTree where
  deg := [1, 0]
  ahead := by decide
  whole := rfl
  letter := fun _ => 97
  zpath := fun s => if s = 1 then some [98] else none
  term := fun s => s == 1
  ascending := ascending_of_nodes (by decide)
  byte := fun _ => by decide
  zbytes := fun c z h => by
    split_ifs at h
    cases h
    decide
  leaves := by decide
  root := rfl

/-- The layers of the trie with one edge. -/
def oneEdgeLayers : Layers := ⟨[(0, 0), (1, 0)], [⟨0, 1, 0⟩, ⟨1, 2, 0⟩], 0, 1⟩

/-- **"ab" CANNOT BE SOUGHT**: the edge string behind "a" has one byte. -/
theorem trie_iterator_ab_undefined :
    (trieOf oneEdge).Carries oneEdge ∧ oneEdge.strings = [[97, 98]] ∧
      (trieOf oneEdge).initForTerm = some oneEdgeLayers ∧ (trieOf oneEdge).Iterable oneEdge 2 ∧
      (trieOf oneEdge).watchIter (iterRoom oneEdgeLayers 2) [.lowerBound [97, 98]] = none := by
  have hstrings : oneEdge.strings = [[97, 98]] := by decide
  have hz : ∀ s z, oneEdge.zpath s = some z → z.length < 2 ^ 8 := by
    intro s z h
    dsimp only [oneEdge] at h
    split_ifs at h
    cases h
    decide
  exact ⟨trieOf_carries (by decide), hstrings, rfl,
    { states := by decide, zlen := fun s z _ h => hz s z h, strlen := by rw [hstrings]; decide,
      width := by decide }, rfl⟩

end NestLouds
