import ToplingArk.ByteBitsProofs
import ToplingArk.DictRankProofs

/-! # The labels of a nested LOUDS trie — searching the children of a state

    The letters that lead to the states stand in `m_label_data`, in one of three forms.  With
    fast labels the children of a state have their letters there, or, from 36 children on, a
    bitmap of 256 bits behind four counts.  Without fast labels the letter of a state with a
    link is the first byte of a string kept elsewhere, which `label_first_byte` fetches; if
    there is no link at all the letters are read directly.  Every search for a byte ends at
    the first child whose letter is no less. -/

namespace NestLouds

open BitCount ByteBits LevelTree LittleEndian Patricia RankSelectLine List Option

/-- `NestLoudsTrieTpl` as far as it is read in a search.  Where `label_first_byte` and
    `get_zpath_data` follow the links is not part of this model. -/
structure Trie extends Skeleton where
  fastLabel : Bool
  label : List Byte
  isLink : List Bool
  firstByte : Nat → Option Nat
  zpathData : Nat → Option (List Nat)

/-- `fast_popcount_trail` -/
def popcountTrail (w : BitVec 64) (n : Nat) : Nat := ones w.getLsbD n

namespace Trie

variable (t : Trie)

/-- `m_label_data[p]` -/
def labelAt (p : Nat) : Option Nat := t.label[p]?.map Fin.val

/-- `lower_bound_0(m_label_data + p, n, key)` -/
def lowerBound0 (p n key : Nat) : Option Nat :=
  Search.upperBound (fun i => (t.labelAt (p + i)).map (fun b => decide (b < key))) 0 n

/-- `m_is_link.max_rank1() > 0` -/
def hasLink : Bool := t.isLink.any id

/-- `child0` and `lcount` of a state. -/
def childRange (parent : Nat) : Option (Nat × Nat) := do
  let bitpos ← t.louds.face.select0 parent
  some (wsub bitpos parent, Louds.oneSeqLen t.louds.bits (bitpos + 1))

/-- The search among letters that stand side by side. -/
def searchLabels (child0 lcount ch : Nat) : Option (Nat × Bool) := do
  let i ← t.lowerBound0 child0 lcount ch
  if i < lcount then do
    let b ← t.labelAt (child0 + i)
    some (child0 + i, decide (b = ch))
  else some (child0 + i, false)

/-- The search in the bitmap. -/
def searchBitmap (child0 ch : Nat) : Option (Nat × Bool) := do
  let word ← loadWord t.label (child0 + 4 + ch / 64 * 8)
  let base ← t.labelAt (child0 + ch / 64)
  some (child0 + (base + popcountTrail word (ch % 64)), word.getLsbD (ch % 64))

/-- The binary search with `label_first_byte`; `mid` and `mid_ch` are those of the last round. -/
def slowLoop (ch : Nat) : Nat → Nat → Nat → Nat → Nat → Option (Nat × Nat × Nat)
  | 0, i, j, mid, midCh => if i < j then none else some (i, mid, midCh)
  | fuel + 1, i, j, mid, midCh =>
    if i < j then do
      let b ← t.firstByte ((i + j) / 2)
      if b < ch then slowLoop ch fuel ((i + j) / 2 + 1) j ((i + j) / 2) b
      else slowLoop ch fuel i ((i + j) / 2) ((i + j) / 2) b
    else some (i, mid, midCh)

/-- The search without fast labels. -/
def searchSlow (child0 lcount ch : Nat) : Option (Nat × Bool) := do
  let (i, mid, midCh) ← t.slowLoop ch lcount child0 (child0 + lcount) 0 0
  if i < child0 + lcount then do
    let b ← if i ≠ mid then t.firstByte i else some midCh
    some (i, decide (ch = b))
  else some (i, false)

/-- `state_move_lower_bound` -/
def stateMoveLowerBound (parent ch : Nat) : Option (Nat × Bool) := do
  let (child0, lcount) ← t.childRange parent
  if lcount = 0 then some (nilState, false)
  else if t.fastLabel then
    if lcount < 36 then t.searchLabels child0 lcount ch else t.searchBitmap child0 ch
  else t.searchSlow child0 lcount ch

/-- `state_move_lower_bound_no_link` -/
def stateMoveLowerBoundNoLink (parent ch : Nat) : Option (Nat × Bool) := do
  let (child0, lcount) ← t.childRange parent
  if lcount = 0 then some (nilState, false) else t.searchLabels child0 lcount ch

/-- `state_move_lower_bound_smart<HasLink>` -/
def stateMoveLowerBoundSmart (parent ch : Nat) : Option (Nat × Bool) :=
  if t.hasLink || t.fastLabel then t.stateMoveLowerBound parent ch
  else t.stateMoveLowerBoundNoLink parent ch

/-- The trie has the shape, the terminal states, the letters and the edge strings of the tree. -/
structure Carries (t : Trie) (P : PTree) : Prop extends t.toSkeleton.Represents P where
  /-- a state with an edge string is a state with a link -/
  link : ∀ s, s < P.size → t.isLink[s]? = some (P.zpath s).isSome
  zpath : ∀ s z, s < P.size → P.zpath s = some z → t.zpathData s = some z
  /-- without fast labels -/
  slow : t.fastLabel = false → ∀ c, 0 < c → c < P.size → t.firstByte c = some (P.letter c)
  plain : t.fastLabel = false → t.hasLink = false → ∀ c, 0 < c → c < P.size →
    t.labelAt c = some (P.letter c)
  /-- with fast labels, less than 36 children -/
  few : t.fastLabel = true → ∀ s c, s < P.size → P.first (s + 1) - P.first s < 36 →
    P.first s ≤ c → c < P.first (s + 1) → t.labelAt c = some (P.letter c)
  /-- with fast labels, a bitmap -/
  counts : t.fastLabel = true → ∀ s i, s < P.size → 36 ≤ P.first (s + 1) - P.first s → i < 4 →
    t.labelAt (P.first s + i) = some (ones (P.hasLetter s) (64 * i))
  bitmap : t.fastLabel = true → ∀ s i, s < P.size → 36 ≤ P.first (s + 1) - P.first s → i < 4 →
    ∃ w, loadWord t.label (P.first s + 4 + i * 8) = some w ∧
      ∀ j, j < 64 → w.getLsbD j = P.hasLetter s (64 * i + j)

end Trie

section Search

variable {t : Trie} {P : PTree} {s ch : Nat}

/-- Where the children of a node are. -/
theorem Trie.Carries.childRange (h : t.Carries P) (hs : s < P.size) :
    t.childRange s = some (P.first s, P.first (s + 1) - P.first s) := by
  unfold Trie.childRange
  rw [h.select0 hs.le]
  simp only [bind_eq_bind, bind_some]
  rw [wsub_eq (by omega), h.louds, Louds.oneSeqLen_bits hs]
  congr 2
  omega

/-- A search that ends at the first child whose letter is no less. -/
def Finds (P : PTree) (s ch : Nat) (r : Option (Nat × Bool)) : Prop :=
  r = some (P.place s ch, P.hasLetter s ch)

theorem first_le_place (s v : Nat) : P.first s ≤ P.place s v := Nat.le_add_right _ _

/-- The search among the labels. -/
theorem searchLabels_finds
    (hlabel : ∀ c, P.first s ≤ c → c < P.first (s + 1) → t.labelAt c = some (P.letter c))
    (ch : Nat) :
    Finds P s ch (t.searchLabels (P.first s) (P.first (s + 1) - P.first s) ch) := by
  have hge := first_le_place (P := P) s ch
  have hle := place_le (P := P) (s := s) (v := ch)
  have hsearch : t.lowerBound0 (P.first s) (P.first (s + 1) - P.first s) ch =
      some (P.place s ch - P.first s) := by
    refine Search.upperBound_eq (Nat.zero_le _) (by omega) (fun k _ hk => ?_)
    rw [hlabel (P.first s + k) (by omega) (by omega)]
    show some (decide _) = some (decide _)
    congr 1
    rw [decide_eq_decide, letter_lt_iff (Nat.le_add_right _ _) (by omega)]
    omega
  unfold Finds Trie.searchLabels
  rw [hsearch]
  simp only [bind_eq_bind, bind_some]
  rw [Nat.add_sub_cancel' hge]
  by_cases hin : P.place s ch < P.first (s + 1)
  · rw [if_pos (by omega), hlabel _ hge hin, hasLetter_eq hin]
    rfl
  · rw [if_neg (by omega), hasLetter_end (not_lt.mp hin)]

/-- The search in the bitmap. -/
theorem searchBitmap_finds (h : t.Carries P) (hfast : t.fastLabel = true) (hs : s < P.size)
    (hmany : 36 ≤ P.first (s + 1) - P.first s) (hch : ch < 256) :
    Finds P s ch (t.searchBitmap (P.first s) ch) := by
  have hi : ch / 64 < 4 := by omega
  have hsplit : 64 * (ch / 64) + ch % 64 = ch := Nat.div_add_mod ch 64
  obtain ⟨w, hload, hbits⟩ := h.bitmap hfast s (ch / 64) hs hmany hi
  have hcount : ones (P.hasLetter s) (64 * (ch / 64)) + popcountTrail w (ch % 64) =
      ones (P.hasLetter s) ch := by
    conv_rhs => rw [← hsplit, ones_add]
    refine congrArg _ (ones_congr (fun j hj => ?_))
    exact hbits j (by omega)
  unfold Finds Trie.searchBitmap
  rw [hload, h.counts hfast s (ch / 64) hs hmany hi]
  simp only [bind_eq_bind, bind_some]
  rw [hcount, hbits _ (Nat.mod_lt _ (by decide)), hsplit]
  rfl

/-- The last child that was looked at, if any, and its letter. -/
def Looked (P : PTree) (s mid midCh : Nat) : Prop := P.first s ≤ mid → midCh = P.letter mid

/-- The loop keeps the place between its ends. -/
theorem slowLoop_spec
    (hbyte : ∀ c, P.first s ≤ c → c < P.first (s + 1) → t.firstByte c = some (P.letter c)) :
    ∀ fuel i j mid midCh, P.first s ≤ i → i ≤ P.place s ch → P.place s ch ≤ j →
      j ≤ P.first (s + 1) → j - i ≤ fuel → Looked P s mid midCh →
      ∃ mid' midCh', t.slowLoop ch fuel i j mid midCh = some (P.place s ch, mid', midCh') ∧
        Looked P s mid' midCh' := by
  intro fuel
  induction fuel with
  | zero =>
    intro i j mid midCh _ h2 h3 _ hf hlooked
    rw [Trie.slowLoop, if_neg (by omega), show i = P.place s ch by omega]
    exact ⟨mid, midCh, rfl, hlooked⟩
  | succ fuel ih =>
    intro i j mid midCh h1 h2 h3 h4 hf hlooked
    by_cases hlt : i < j
    · have hm1 : P.first s ≤ (i + j) / 2 := by omega
      have hm2 : (i + j) / 2 < P.first (s + 1) := by omega
      have hiff := letter_lt_iff (v := ch) hm1 hm2
      rw [Trie.slowLoop, if_pos hlt, hbyte _ hm1 hm2]
      simp only [bind_eq_bind, bind_some]
      split
      · exact ih _ _ _ _ (by omega) (by omega) h3 h4 (by omega) (fun _ => rfl)
      · exact ih _ _ _ _ h1 h2 (by omega) (by omega) (by omega) (fun _ => rfl)
    · rw [Trie.slowLoop, if_neg hlt, show i = P.place s ch by omega]
      exact ⟨mid, midCh, rfl, hlooked⟩

/-- The search among linked labels. -/
theorem searchSlow_finds
    (hbyte : ∀ c, P.first s ≤ c → c < P.first (s + 1) → t.firstByte c = some (P.letter c))
    (ch : Nat) : Finds P s ch (t.searchSlow (P.first s) (P.first (s + 1) - P.first s) ch) := by
  have hmono := first_mono (T := P.toLTree) (Nat.le_add_right s 1)
  have hpos := first_mono (T := P.toLTree) (Nat.zero_le s)
  rw [first_zero] at hpos
  have hge := first_le_place (P := P) s ch
  obtain ⟨mid, midCh, hloop, hlooked⟩ := slowLoop_spec hbyte (P.first (s + 1) - P.first s)
    (P.first s) (P.first (s + 1)) 0 0 le_rfl hge place_le le_rfl le_rfl
    (fun h0 => absurd h0 (by omega))
  unfold Finds Trie.searchSlow
  rw [Nat.add_sub_cancel' hmono, hloop]
  simp only [bind_eq_bind, bind_some]
  split
  next hin =>
    rw [hasLetter_eq hin]
    by_cases hmid : P.place s ch = mid
    · rw [if_neg (not_not_intro hmid), hlooked (hmid ▸ hge), hmid]
      simp only [eq_comm]
    · rw [if_pos hmid, hbyte _ hge hin]
      simp only [bind_some, eq_comm]
  next hin =>
    rw [hasLetter_end (not_lt.mp hin)]

theorem child_bounds {c : Nat} (hs : s < P.size) (h1 : P.first s ≤ c) (h2 : c < P.first (s + 1)) :
    0 < c ∧ c < P.size := by
  have hpos := first_mono (T := P.toLTree) (Nat.zero_le s)
  have hle := first_le_size (T := P.toLTree) (show s + 1 ≤ P.size from hs)
  rw [first_zero] at hpos
  omega

/-- **EVERY SEARCH FOR A BYTE** ends at the first child whose letter is no less, or says that there
    are no children. -/
theorem stateMoveLowerBoundSmart_spec (h : t.Carries P) (hs : s < P.size) (hch : ch < 256) :
    t.stateMoveLowerBoundSmart s ch =
      if P.first (s + 1) = P.first s then some (nilState, false)
      else some (P.place s ch, P.hasLetter s ch) := by
  have hmono := first_mono (T := P.toLTree) (Nat.le_add_right s 1)
  have hzero : P.first (s + 1) - P.first s = 0 ↔ P.first (s + 1) = P.first s := by omega
  unfold Trie.stateMoveLowerBoundSmart Trie.stateMoveLowerBound Trie.stateMoveLowerBoundNoLink
  rw [h.childRange hs]
  simp only [bind_eq_bind, bind_some, hzero]
  by_cases hleaf : P.first (s + 1) = P.first s
  · simp only [if_pos hleaf, ite_self]
  simp only [if_neg hleaf]
  cases hfast : t.fastLabel with
  | true =>
    rw [Bool.or_true, if_pos rfl, if_pos rfl]
    split
    next hfew =>
      exact searchLabels_finds (fun c h1 h2 => h.few hfast s c hs hfew h1 h2) ch
    next hfew =>
      exact searchBitmap_finds h hfast hs (not_lt.mp hfew) hch
  | false =>
    cases hlink : t.hasLink with
    | true =>
      refine searchSlow_finds (fun c h1 h2 => ?_) ch
      have hc := child_bounds hs h1 h2
      exact h.slow hfast c hc.1 hc.2
    | false =>
      refine searchLabels_finds (fun c h1 h2 => ?_) ch
      have hc := child_bounds hs h1 h2
      exact h.plain hfast hlink c hc.1 hc.2

end Search

/-- The trie of a tree, without fast labels. -/
def trieOf (P : PTree) : Trie where
  indexBits := 64
  louds := RsBits.ofBits (Louds.bits P.toLTree)
  isTerm := RsBits.ofBits ((range P.size).map P.term)
  room := 2 ^ 32 - 1
  indexWidth := width64
  roomWidth := by decide
  fastLabel := false
  label := (range P.size).map (fun c => byteOf (P.letter c))
  isLink := (range P.size).map (fun s => (P.zpath s).isSome)
  firstByte := fun c => some (P.letter c)
  zpathData := P.zpath

/-- Every tree of that size is carried by a trie. -/
theorem trieOf_carries {P : PTree} (hfits : 2 * P.size + 1 < 2 ^ 64) : (trieOf P).Carries P where
  louds := rfl
  term := by
    show ((range P.size).map P.term).length = _
    rw [length_map, length_range]
  fits := hfits
  terms := fun s hs => by
    show ((range P.size).map P.term)[s]? = _
    rw [getElem?_map, getElem?_range hs]
    rfl
  link := fun s hs => by
    show ((range P.size).map (fun s => (P.zpath s).isSome))[s]? = _
    rw [getElem?_map, getElem?_range hs]
    rfl
  zpath := fun _ _ _ hz => hz
  slow := fun _ _ _ _ => rfl
  plain := fun _ _ c _ hc => by
    show (((range P.size).map (fun c => byteOf (P.letter c)))[c]?).map Fin.val = _
    rw [getElem?_map, getElem?_range hc]
    exact congrArg some (Nat.mod_eq_of_lt (P.byte c))
  few := fun hfast => nomatch hfast
  counts := fun hfast => nomatch hfast
  bitmap := fun hfast => nomatch hfast

end NestLouds
