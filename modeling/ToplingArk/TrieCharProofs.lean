import ToplingArk.ByteBitmapProofs
import ToplingArk.TrieLabelProofs

/-! # The letters of a nested LOUDS trie — stepping from child to child

    An iterator over the trie needs the letter of the first, the last, the next and the
    previous child, and searches a child by its letter in a way of its own.  In a bitmap the
    child with index `i` is the one with `i` ones before it, so every one of these letters is
    a select. -/

namespace NestLouds

open BitCount LevelTree Patricia ByteBitmap Option Nat

namespace Trie

variable (t : Trie)

/-- A word of the bitmap at `child0`. -/
def bitmapWord (child0 i : Nat) : Option (BitVec 64) :=
  ByteBits.loadWord t.label (child0 + 4 + i * 8)

/-- `getFirstChar`; the `abort()` is `none`. -/
def getFirstChar (child0 lcount : Nat) : Option Nat :=
  if t.fastLabel then
    if lcount < 36 then t.labelAt child0 else firstFrom (t.bitmapWord child0) 4 0
  else t.firstByte child0

/-- `getNthChar` -/
def getNthChar (child0 lcount nth : Nat) : Option Nat :=
  if t.fastLabel then
    if lcount < 36 then t.labelAt (child0 + nth)
    else rsSelect1 (t.bitmapWord child0) (fun i => t.labelAt (child0 + i)) nth
  else t.firstByte (child0 + nth)

/-- `getNthCharNext` -/
def getNthCharNext (child0 lcount nth cch : Nat) : Option Nat :=
  if t.fastLabel then
    if lcount < 36 then t.labelAt (child0 + nth) else rsNextOnePos (t.bitmapWord child0) cch
  else t.firstByte (child0 + nth)

/-- `getNthCharPrev` -/
def getNthCharPrev (child0 lcount nth cch : Nat) : Option Nat :=
  if t.fastLabel then
    if lcount < 36 then t.labelAt (child0 + nth) else rsPrevOnePos (t.bitmapWord child0) cch
  else t.firstByte (child0 + nth)

/-- `do lo++; while (label[lo] < ch)` -/
def scanLabels (ch : Nat) : Nat → Nat → Option Nat
  | 0, _ => none
  | fuel + 1, p => do
    let b ← t.labelAt p
    if b < ch then scanLabels ch fuel (p + 1) else some p

/-- The binary search of the iterator, which stops when it meets the letter: the place, and
    whether the letter is there. -/
def threeWay (ch : Nat) : Nat → Nat → Nat → Option (Nat × Bool)
  | 0, lo, hi => if lo < hi then none else some (lo, false)
  | fuel + 1, lo, hi =>
    if lo < hi then do
      let midCh ← t.firstByte ((lo + hi) / 2)
      if midCh < ch then threeWay ch fuel ((lo + hi) / 2 + 1) hi
      else if ch < midCh then threeWay ch fuel lo ((lo + hi) / 2)
      else some ((lo + hi) / 2, true)
    else some (lo, false)

/-- The search among letters that stand side by side. -/
def scanChild (child0 nChildren ch : Nat) : Option (Option (Nat × Bool)) :=
  if nChildren = 0 then some none
  else do
    let last ← t.labelAt (child0 + (nChildren - 1))
    if ch ≤ last then do
      let p ← t.scanLabels ch nChildren child0
      let ch2 ← t.labelAt p
      some (some (p - child0, decide (ch2 = ch)))
    else some none

/-- The search for a child in `seek_lower_bound` and `seek_max_prefix`: no child has the letter or
    a greater one, or the index of the first such child and whether it has the letter. -/
def searchChild (child0 nChildren ch : Nat) : Option (Option (Nat × Bool)) :=
  if t.fastLabel then
    if nChildren < 36 then t.scanChild child0 nChildren ch
    else do
      let (p, hit) ← t.searchBitmap child0 ch
      some (if p - child0 < nChildren then some (p - child0, hit) else none)
  else do
    let (p, hit) ← t.threeWay ch nChildren child0 (child0 + nChildren)
    some (if p < child0 + nChildren then some (p - child0, hit) else none)

end Trie

variable {t : Trie} {P : PTree}

/-! ## Letters as selects -/

variable {c ch s : Nat}

/-- A child stands at the place of its letter. -/
theorem place_letter (h1 : P.first s ≤ c) (h2 : c < P.first (s + 1)) :
    P.place s (P.letter c) = c := by
  obtain ⟨hin, hletter⟩ := letter_place (hasLetter_iff.mpr ⟨c, h1, h2, rfl⟩)
  rcases lt_trichotomy (P.place s (P.letter c)) c with hlt | heq | hgt
  · have := letter_lt (first_le_place s _) hlt h2
    omega
  · exact heq
  · have := letter_lt h1 hgt hin
    omega

/-- Behind the letter of a child is the next child. -/
theorem place_letter_succ (h1 : P.first s ≤ c) (h2 : c < P.first (s + 1)) :
    P.place s (P.letter c + 1) = c + 1 := by
  rw [place_succ, place_letter h1 h2, if_pos (hasLetter_iff.mpr ⟨c, h1, h2, rfl⟩)]

/-- Behind the greatest byte there is no child. -/
theorem place_end (s : Nat) : P.place s 256 = P.first (s + 1) := by
  refine le_antisymm place_le (not_lt.mp (fun hlt => ?_))
  have := (letter_lt_iff (v := 256) (first_le_place s 256) hlt).mp (P.byte _)
  exact lt_irrefl _ this

/-- A node has a child for each byte at most. -/
theorem degree_le (s : Nat) : P.first (s + 1) - P.first s ≤ 256 := by
  have h := ones_le (P.hasLetter s) 256
  have hend := place_end (P := P) s
  unfold PTree.place at hend
  omega

/-- The words of a bitmap, which hold the letters of the children. -/
structure Words (t : Trie) (P : PTree) (s : Nat) (W : Nat → BitVec 64) : Prop where
  word : ∀ i, i < 4 → t.bitmapWord (P.first s) i = some (W i)
  base : ∀ i, i < 4 → t.labelAt (P.first s + i) = some (ones (wordBits W) (64 * i))
  ones : ∀ v, v ≤ 256 → P.first s + ones (wordBits W) v = P.place s v
  select : ∀ c, P.first s ≤ c → c < P.first (s + 1) →
    IsSelect (wordBits W) (c - P.first s) (P.letter c)

/-- Many children are kept in a bitmap. -/
theorem Trie.Carries.exists_words (h : t.Carries P) (hfast : t.fastLabel = true) (hs : s < P.size)
    (hmany : 36 ≤ P.first (s + 1) - P.first s) : ∃ W, Words t P s W := by
  -- whatever stands behind the last word
  have hall : ∀ i, ∃ w, i < 4 → t.bitmapWord (P.first s) i = some w ∧
      ∀ j, j < 64 → w.getLsbD j = P.hasLetter s (64 * i + j) := by
    intro i
    by_cases hi : i < 4
    · obtain ⟨w, hw⟩ := h.bitmap hfast s i hs hmany hi
      exact ⟨w, fun _ => hw⟩
    · exact ⟨0, fun hlt => absurd hlt hi⟩
  choose W hW using hall
  have hbits : ∀ p, p < 256 → wordBits W p = P.hasLetter s p := by
    intro p hp
    have hbit := (hW (p / 64) (by omega)).2 _ (mod_lt p (show 0 < 64 by decide))
    rwa [div_add_mod] at hbit
  have hones : ∀ v, v ≤ 256 → ones (wordBits W) v = ones (P.hasLetter s) v :=
    fun v hv => ones_congr (fun p hp => hbits p (by omega))
  refine ⟨W, fun i hi => (hW i hi).1, ?_, ?_, ?_⟩
  · intro i hi
    rw [hones _ (by omega)]
    exact h.counts hfast s i hs hmany hi
  · intro v hv
    rw [hones v hv]
    rfl
  · intro c h1 h2
    have hbyte := P.byte c
    refine ⟨(hbits _ hbyte).trans (hasLetter_iff.mpr ⟨c, h1, h2, rfl⟩), ?_⟩
    have hplace := place_letter h1 h2
    unfold PTree.place at hplace
    rw [hones _ hbyte.le]
    omega

/-! ## The letters of the children -/

section Letters

variable (h : t.Carries P) {s : Nat} (hs : s < P.size)

include h hs

/-- Where the letter is not found in a bitmap it is read directly. -/
theorem letter_direct (h1 : P.first s ≤ c) (h2 : c < P.first (s + 1)) (r : Option Nat)
    (hbitmap : t.fastLabel = true → 36 ≤ P.first (s + 1) - P.first s → r = some (P.letter c)) :
    (if t.fastLabel then
      if P.first (s + 1) - P.first s < 36 then t.labelAt (P.first s + (c - P.first s)) else r
    else t.firstByte (P.first s + (c - P.first s))) = some (P.letter c) := by
  rw [Nat.add_sub_cancel' h1]
  cases hfast : t.fastLabel with
  | true =>
    by_cases hfew : P.first (s + 1) - P.first s < 36
    · rw [if_pos hfew]
      exact h.few hfast s c hs hfew h1 h2
    · rw [if_neg hfew]
      exact hbitmap hfast (not_lt.mp hfew)
  | false =>
    have hc := child_bounds hs h1 h2
    exact h.slow hfast c hc.1 hc.2

/-- The first letter, in either form. -/
theorem getFirstChar_spec (hkids : P.first s < P.first (s + 1)) :
    t.getFirstChar (P.first s) (P.first (s + 1) - P.first s) = some (P.letter (P.first s)) := by
  have hdirect := letter_direct h hs le_rfl hkids (firstFrom (t.bitmapWord (P.first s)) 4 0)
    (fun hfast hmany => by
      obtain ⟨W, hW⟩ := h.exists_words hfast hs hmany
      have hend := hW.ones 256 le_rfl
      rw [place_end] at hend
      obtain ⟨p, hp, hsel⟩ := firstFrom_select hW.word (by omega)
      have hfirst := hW.select _ le_rfl hkids
      rw [Nat.sub_self] at hfirst
      rw [hp, hsel.unique hfirst])
  rwa [Nat.sub_self, add_zero] at hdirect

/-- The letter of a child, in either form. -/
theorem getNthChar_spec (h1 : P.first s ≤ c) (h2 : c < P.first (s + 1)) :
    t.getNthChar (P.first s) (P.first (s + 1) - P.first s) (c - P.first s) = some (P.letter c) := by
  refine letter_direct h hs h1 h2 _ (fun hfast hmany => ?_)
  obtain ⟨W, hW⟩ := h.exists_words hfast hs hmany
  have hend := hW.ones 256 le_rfl
  rw [place_end] at hend
  obtain ⟨p, hp, hsel⟩ := rsSelect1_select hW.word hW.base
    (show c - P.first s < ones (wordBits W) 256 by omega)
  rw [hp, hsel.unique (hW.select c h1 h2)]

/-- The next letter after a byte, which may be the letter of a child or not. -/
theorem getNthCharNext_spec {cch : Nat} (h1 : P.first s ≤ c) (h2 : c < P.first (s + 1))
    (hcch : cch < 256) (hplace : P.place s (cch + 1) = c) :
    t.getNthCharNext (P.first s) (P.first (s + 1) - P.first s) (c - P.first s) cch =
      some (P.letter c) := by
  refine letter_direct h hs h1 h2 _ (fun hfast hmany => ?_)
  obtain ⟨W, hW⟩ := h.exists_words hfast hs hmany
  have hend := hW.ones 256 le_rfl
  have hrank := hW.ones (cch + 1) hcch
  rw [place_end] at hend
  obtain ⟨p, hp, hsel⟩ := rsNextOnePos_select hW.word hcch (by omega)
  rw [show ones (wordBits W) (cch + 1) = c - P.first s by omega] at hsel
  rw [hp, hsel.unique (hW.select c h1 h2)]

/-- The letter before, in either form. -/
theorem getNthCharPrev_spec (h1 : P.first s ≤ c) (h2 : c + 1 < P.first (s + 1)) :
    t.getNthCharPrev (P.first s) (P.first (s + 1) - P.first s) (c - P.first s) (P.letter (c + 1)) =
      some (P.letter c) := by
  refine letter_direct h hs h1 (by omega) _ (fun hfast hmany => ?_)
  obtain ⟨W, hW⟩ := h.exists_words hfast hs hmany
  have hrank := (hW.select (c + 1) (by omega) h2).before
  obtain ⟨p, hp, hsel⟩ := rsPrevOnePos_select hW.word (P.byte (c + 1)) (by omega)
  rw [show ones (wordBits W) (P.letter (c + 1)) - 1 = c - P.first s by omega] at hsel
  rw [hp, hsel.unique (hW.select c h1 (by omega))]

end Letters

/-! ## The search -/

/-- What the search for a child answers. -/
def childAt (P : PTree) (s ch : Nat) : Option (Nat × Bool) :=
  if P.place s ch < P.first (s + 1) then some (P.place s ch - P.first s, P.hasLetter s ch) else none

theorem scanLabels_spec
    (hlabel : ∀ c, P.first s ≤ c → c < P.first (s + 1) → t.labelAt c = some (P.letter c))
    (hin : P.place s ch < P.first (s + 1)) :
    ∀ fuel p, P.first s ≤ p → p ≤ P.place s ch → P.place s ch - p < fuel →
      t.scanLabels ch fuel p = some (P.place s ch) := by
  intro fuel
  induction fuel with
  | zero => intro p _ _ hlt; cases hlt
  | succ fuel ih =>
    intro p h1 h2 hfuel
    have hiff := letter_lt_iff (v := ch) h1 (show p < P.first (s + 1) by omega)
    rw [Trie.scanLabels, hlabel p h1 (by omega)]
    simp only [bind_eq_bind, bind_some]
    split
    · exact ih (p + 1) (by omega) (by omega) (by omega)
    · rw [show p = P.place s ch by omega]

/-- The scan finds the child or says that there is none. -/
theorem scanChild_spec
    (hlabel : ∀ c, P.first s ≤ c → c < P.first (s + 1) → t.labelAt c = some (P.letter c))
    (ch : Nat) :
    t.scanChild (P.first s) (P.first (s + 1) - P.first s) ch = some (childAt P s ch) := by
  have hge := first_le_place (P := P) s ch
  unfold Trie.scanChild childAt
  by_cases hleaf : P.first (s + 1) - P.first s = 0
  · rw [if_pos hleaf, if_neg (by omega)]
  -- the last child tells whether there is anything to find
  have hiff := letter_lt_iff (P := P) (s := s) (v := ch) (c := P.first (s + 1) - 1)
    (by omega) (by omega)
  rw [if_neg hleaf, show P.first s + (P.first (s + 1) - P.first s - 1)
      = P.first (s + 1) - 1 by omega, hlabel _ (by omega) (by omega)]
  simp only [bind_eq_bind, bind_some]
  by_cases hin : P.place s ch < P.first (s + 1)
  · rw [if_pos (by omega), if_pos hin, scanLabels_spec hlabel hin _ _ le_rfl hge (by omega)]
    simp only [bind_some]
    rw [hlabel _ hge hin, hasLetter_eq hin]
    rfl
  · rw [if_neg (by omega), if_neg hin]

/-- The search among bytes finds the child. -/
theorem threeWay_spec
    (hbyte : ∀ c, P.first s ≤ c → c < P.first (s + 1) → t.firstByte c = some (P.letter c)) :
    ∀ fuel lo hi, P.first s ≤ lo → lo ≤ P.place s ch → P.place s ch ≤ hi → hi ≤ P.first (s + 1) →
      hi - lo ≤ fuel → (hi < P.first (s + 1) → ch < P.letter hi) →
      t.threeWay ch fuel lo hi = some (P.place s ch, P.hasLetter s ch) := by
  -- when the interval is empty the child at its end is known to have a greater letter
  have hend : ∀ lo hi, lo ≤ P.place s ch → P.place s ch ≤ hi → ¬ lo < hi → hi ≤ P.first (s + 1) →
      (hi < P.first (s + 1) → ch < P.letter hi) →
      some (lo, false) = some (P.place s ch, P.hasLetter s ch) := by
    intro lo hi h2 h3 hlt h4 hgreater
    have hlo : lo = P.place s ch := by omega
    have hhi : hi = P.place s ch := by omega
    rw [hlo]
    by_cases hin : P.place s ch < P.first (s + 1)
    · rw [hhi] at hgreater
      rw [hasLetter_eq hin, decide_eq_false (ne_of_gt (hgreater hin))]
    · rw [hasLetter_end (not_lt.mp hin)]
  intro fuel
  induction fuel with
  | zero =>
    intro lo hi _ h2 h3 h4 hfuel hgreater
    rw [Trie.threeWay, if_neg (by omega)]
    exact hend lo hi h2 h3 (by omega) h4 hgreater
  | succ fuel ih =>
    intro lo hi h1 h2 h3 h4 hfuel hgreater
    by_cases hlt : lo < hi
    · have hm1 : P.first s ≤ (lo + hi) / 2 := by omega
      have hm2 : (lo + hi) / 2 < P.first (s + 1) := by omega
      have hiff := letter_lt_iff (v := ch) hm1 hm2
      rw [Trie.threeWay, if_pos hlt, hbyte _ hm1 hm2]
      simp only [bind_eq_bind, bind_some]
      split
      · exact ih _ _ (by omega) (by omega) h3 h4 (by omega) hgreater
      by_cases hb' : ch < P.letter ((lo + hi) / 2)
      · rw [if_pos hb']
        exact ih _ _ h1 h2 (by omega) (by omega) (by omega) (fun _ => hb')
      · have heq : P.letter ((lo + hi) / 2) = ch := by omega
        have hplace := place_letter hm1 hm2
        rw [heq] at hplace
        rw [if_neg hb', hplace, hasLetter_iff.mpr ⟨_, hm1, hm2, heq⟩]
    · rw [Trie.threeWay, if_neg hlt]
      exact hend lo hi h2 h3 hlt h4 hgreater

/-- **THE SEARCH FOR A CHILD**, in every form of the labels. -/
theorem searchChild_spec (h : t.Carries P) (hs : s < P.size) (hch : ch < 256) :
    t.searchChild (P.first s) (P.first (s + 1) - P.first s) ch = some (childAt P s ch) := by
  have hmono := first_mono (T := P.toLTree) (le_add_right s 1)
  have hge := first_le_place (P := P) s ch
  unfold Trie.searchChild
  cases hfast : t.fastLabel with
  | true =>
    rw [if_pos rfl]
    by_cases hfew : P.first (s + 1) - P.first s < 36
    · rw [if_pos hfew]
      exact scanChild_spec (fun c h1 h2 => h.few hfast s c hs hfew h1 h2) ch
    · have hfind := searchBitmap_finds h hfast hs (not_lt.mp hfew) hch
      rw [if_neg hfew, hfind]
      simp only [bind_eq_bind, bind_some]
      unfold childAt
      by_cases hin : P.place s ch < P.first (s + 1)
      · rw [if_pos (by omega), if_pos hin]
      · rw [if_neg (by omega), if_neg hin]
  | false =>
    have hbyte : ∀ c, P.first s ≤ c → c < P.first (s + 1) → t.firstByte c = some (P.letter c) := by
      intro c h1 h2
      have hc := child_bounds hs h1 h2
      exact h.slow hfast c hc.1 hc.2
    rw [if_neg (by decide), Nat.add_sub_cancel' hmono, threeWay_spec hbyte _ _ _ le_rfl
      hge place_le le_rfl le_rfl (fun hlt => absurd hlt (lt_irrefl _))]
    rfl

end NestLouds
