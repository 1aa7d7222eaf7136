import ToplingArk.RankSelectIlCacheProofs

/-! # `rank_select_il` — attaching to a memory image

    `risk_mmap_from` rebuilds an object from the bytes of a built one.  The image
    stores the size and the two cache flags; the ADDRESSES of the select caches are
    computed again, with the loader's own slot formula.  The writer's formula
    depends on the quantum `Q0`, the loader's does not, so for
    `rank_select_il_256_32_41` with both caches the loader puts the select1 cache
    into the middle of the select0 cache. -/

namespace RankSelectIl

open BitCount Search RankSelectLine List Option Nat

/-! ## The loader -/

/-- `((uint64_t*)(base + length))[-1]` -/
def Image.flags (img : Image) : Option Nat :=
  (img.tail[img.tail.length - 2]?).bind (fun lo =>
    (img.tail[img.tail.length - 1]?).map (fun hi => lo + 2 ^ 32 * hi))

/-- `risk_mmap_from(base, length)` -/
def riskMmapFrom (img : Image) : Option Cache :=
  img.flags.bind (fun flags =>
    let size := flags / 2 ^ 8
    let nlines := (size + 255) / 256
    (img.rlev1 nlines).map (fun maxRank1 =>
      let maxRank0 := wsub size maxRank1
      let select0Slots := ((maxRank0 + 255) % 2 ^ 64) / 256
      let selectIndex := 10 * (nlines + 1)
      ⟨img, nlines, size, maxRank0, maxRank1,
        if flags % 2 = 0 then none else some selectIndex,
        if flags / 2 % 2 = 0 then none
        else some (selectIndex + if flags % 2 = 0 then 0 else select0Slots + 1)⟩))

/-- The two classes: `rank_select_il_256` has `Q0 = 1`, `rank_select_il_256_32_41`
    has `Q0 = 4`. -/
inductive IlClass where
  | il256
  | il41
  deriving DecidableEq

/-- `build_cache` of either class. -/
def IlClass.buildCache : IlClass → (Nat → Nat) → Il → Bool → Bool → Option Cache
  | .il256 => RankSelectIl.buildCache
  | .il41 => RankSelectIl.buildCache41

/-- `select0` of either class. -/
def IlClass.select0 : IlClass → Cache → Nat → Option Nat
  | .il256 => RankSelectIl.select0
  | .il41 => RankSelectIl.select041

/-- The quantum argument the class passes to `build_cache_q`. -/
def IlClass.q0 : IlClass → Bool → Nat
  | .il256, speed0 => speed0.toNat
  | .il41, speed0 => if speed0 then 4 else 0

/-- The attached object `c'` answers every admissible question like the original. -/
structure SameAnswers (cls : IlClass) (c c' : Cache) : Prop where
  size : c'.size = c.size
  max0 : c'.maxRank0 = c.maxRank0
  max1 : c'.maxRank1 = c.maxRank1
  rank1 : ∀ i, i ≤ c.size → ∃ r, rank1 c i = some r ∧ rank1 c' i = some r
  rank0 : ∀ i, i ≤ c.size → ∃ r, rank0 c i = some r ∧ rank0 c' i = some r
  select1 : ∀ R, R < c.maxRank1 → ∃ p, select1 c R = some p ∧ select1 c' R = some p
  select0 : ∀ R, R < c.maxRank0 → ∃ p, cls.select0 c R = some p ∧ cls.select0 c' R = some p

/-! ## What the writer leaves behind -/

/-- The flags and the addresses of a written image. -/
structure Written (n Q0 Q1 : Nat) (c : Cache) : Prop where
  flags : c.mem.flags = some (flagsOf n (Q1 != 0) (Q0 != 0))
  ptr0 : c.fastSelect0 = if Q0 = 0 then none else some (10 * (c.nlines + 1))
  ptr1 : c.fastSelect1 = if Q1 = 0 then none
    else some (10 * (c.nlines + 1) + if Q0 = 0 then 0 else slotCount Q0 c.maxRank0 + 1)

theorem flags_tailWords (body : List Line) (junk : Nat → Nat) (slots : List Nat) (flags : Nat) :
    Image.flags ⟨body, tailWords junk slots flags⟩ = some flags := by
  rw [tailWords]
  generalize slots ++ (range (10 * ((slots.length + 2 + 9) / 10) - 2 - slots.length)).map
    (fun i => junk (slots.length + i)) = front
  have hlen : (front ++ [flags % 2 ^ 32, flags / 2 ^ 32]).length = front.length + 2 := by simp
  show (_[(front ++ _).length - 2]?).bind _ = _
  rw [hlen, Nat.add_sub_cancel, show front.length + 2 - 1 = front.length + 1 by omega,
    getElem?_append_right le_rfl, Nat.sub_self, getElem?_append_right (le_succ _),
    show front.length.succ - front.length = 1 by omega]
  show some (flags % 2 ^ 32 + 2 ^ 32 * _) = _
  rw [mod_add_div]

variable {s : Il} {Q0 Q1 : Nat} {c : Cache}

/-- What `build_cache` writes behind the lines. -/
theorem buildCacheQ_written {junk : Nat → Nat} (h : buildCacheQ junk s Q0 Q1 = some c) :
    Written s.size Q0 Q1 c := by
  obtain ⟨-, h⟩ := ite_none_left_eq_some.mp h
  obtain ⟨cl, _, h⟩ := bind_eq_some_iff.mp h
  obtain ⟨sel0, h0, h⟩ := bind_eq_some_iff.mp h
  obtain ⟨sel1, _, rfl⟩ := map_eq_some_iff.mp h
  refine ⟨flags_tailWords _ _ _ _, rfl, ?_⟩
  -- the select1 cache stands behind all slots of the select0 cache
  have hlen : sel0.length
      = if Q0 = 0 then 0 else slotCount Q0 (wsub s.size (fillRlev cl 0).2) + 1 := by
    unfold buildSel0 at h0
    by_cases hQ : Q0 = 0
    · rw [if_pos hQ] at h0 ⊢
      rw [← some.inj h0]
      rfl
    · rw [if_neg hQ] at h0 ⊢
      exact hints_length h0
  show (if Q1 = 0 then none else some (_ + sel0.length)) = _
  rw [hlen]
  rfl

/-- The flags can be read back. -/
theorem flagsOf_bits (n Q0 Q1 : Nat) :
    flagsOf n (Q1 != 0) (Q0 != 0) / 2 ^ 8 = n ∧
    (flagsOf n (Q1 != 0) (Q0 != 0) % 2 = 0 ↔ Q0 = 0) ∧
    (flagsOf n (Q1 != 0) (Q0 != 0) / 2 % 2 = 0 ↔ Q1 = 0) := by
  have hbit : ∀ Q : Nat, (Q != 0).toNat ≤ 1 ∧ ((Q != 0).toNat = 0 ↔ Q = 0) := by
    intro Q
    refine ⟨Bool.toNat_le _, ?_⟩
    rw [Bool.toNat_eq_zero, bne_eq_false_iff_eq]
  obtain ⟨h1, h1'⟩ := hbit Q1
  obtain ⟨h0, h0'⟩ := hbit Q0
  unfold flagsOf
  omega

variable {W : Nat → BitVec 64} {n : Nat}

/-- **THE LOADER** recovers everything but the address of the select1 cache, which
    it computes with `Q0 = 1`. -/
theorem riskMmapFrom_eq (hok : CacheOk W n Q0 c) (hw : Written n Q0 Q1 c)
    (hnl : c.nlines = bitsToLines n) (hclean : ∀ i, n ≤ i → wordBits W i = false) :
    riskMmapFrom c.mem = some ⟨c.mem, c.nlines, c.size, c.maxRank0, c.maxRank1, c.fastSelect0,
      if Q1 = 0 then none
      else some (10 * (c.nlines + 1) + if Q0 = 0 then 0 else slotCount 1 c.maxRank0 + 1)⟩ := by
  obtain ⟨hsize, hbit0, hbit1⟩ := flagsOf_bits n Q0 Q1
  have hlines : (n + 255) / 256 = c.nlines := hnl.symm
  have hmax1 : lineCount (wordBits W) 256 c.nlines = c.maxRank1 := by
    rw [hok.max1]
    exact ones_eq_of_zeros hok.fits (fun p hp _ => hclean p hp)
  have hmax0 : wsub n c.maxRank1 = c.maxRank0 := by rw [hok.max1, hok.max0, wsub_ones]
  rw [riskMmapFrom, hw.flags]
  show (c.mem.rlev1 _).map _ = _
  rw [hsize, hlines, hok.indexed.rlev1 _ le_rfl, map_some, hmax1, hmax0, hok.size, hw.ptr0]
  simp only [hbit0, hbit1]
  rfl

/-! ## Searching a misread range -/

section Misread

variable {W : Nat → BitVec 64} {nl R t p : Nat} {mem : Image}

/-- A line boundary other than the bound of `R`: the line before it ends before the
    one asked for, or starts behind it. -/
theorem wrong_line {F : Nat → Bool} (h0 : t ≠ 0) (hin : t - 1 ≤ nl)
    (ht : t ≠ lineBound F 256 nl R) :
    R < ones F (64 * (4 * (t - 1))) ∨ ones F (64 * (4 * (t - 1) + 4)) ≤ R := by
  rw [show 64 * (4 * (t - 1)) = 256 * (t - 1) by omega,
    show 64 * (4 * (t - 1) + 4) = 256 * t by omega]
  rcases lt_or_gt_of_ne ht with hlt | hgt
  · have hle := firstGe_le (lineCount F 256) nl (R + 1)
    exact Or.inr ((lineCount_le_iff (by unfold lineBound at hlt; omega)).mpr hlt)
  · left
    by_contra hge
    have := (lineCount_le_iff hin).mp (not_lt.mp hge)
    omega

section

variable (h : Indexed W nl mem.body) (hnl : nl ≤ 2 ^ 24) {lo hi : Nat}

include h hnl

/-- In a wrong line there is nothing to select. -/
theorem selectAt1_none (hR : R < lineCount (wordBits W) 256 nl)
    (ht : t ≠ lineBound (wordBits W) 256 nl R) : selectAt1 mem R t = none := by
  rw [selectAt1]
  split
  · rfl
  rename_i h0
  by_cases hin : t - 1 < nl
  · obtain ⟨l, hl, h1, _, hc, hb⟩ := h.hits hin
    have hout := wrong_line h0 hin.le ht
    rw [← h1] at hout
    rw [hl, bind_some, selectLine1_none h1 hc hb (by omega) hout, map_none]
  by_cases heq : t - 1 = nl
  · -- the sentinel
    obtain ⟨l, hl, hr, hz⟩ := h.last
    have hle := ones_le (wordBits W) (256 * nl)
    have hsmall : l.rlev1 < 2 ^ 63 := by
      rw [hr, lineCount]
      omega
    rw [heq, hl, bind_some, selectLine1_last hz (by rw [hr]; exact hR) hsmall,
      map_none]
  · rw [getElem?_eq_none (by rw [h.length]; omega), bind_none]

/-- In a wrong line no zero is found. -/
theorem selectAt0_none (hle : t ≤ nl) (ht : t ≠ lineBound (negBits (wordBits W)) 256 nl R) :
    selectAt0 mem R t = none := by
  rw [selectAt0]
  by_cases h0 : t = 0
  · rw [if_pos h0]
  obtain ⟨l, hl, _, h1, hc, hb⟩ := h.hits (show t - 1 < nl by omega)
  have hout := wrong_line h0 (by omega) ht
  rw [← h1] at hout
  rw [if_neg h0, hl, bind_some, selectLine0_none h1 hc hb (by omega) hout, map_none]

/-- A search from `lo` to `hi` ends at `t`. -/
def Finds (lo hi t : Nat) : Prop := lo = t ∨ lo ≤ t ∧ t ≤ hi

instance (lo hi t : Nat) : Decidable (Finds lo hi t) := inferInstanceAs (Decidable (_ ∨ _))

omit h hnl in
/-- Searching from `lo` to `hi`, whatever they are, finds what is only at `t` exactly when
    the range encloses `t` or is empty and starts there. -/
theorem search_iff {before : Nat → Option Bool} {found : Nat → Option Nat}
    (h : lo ≤ hi → upperBound before lo hi = some (max lo (min t hi))) (hp : found t = some p)
    (hnone : ∀ k, k ≤ max lo t → k ≠ t → found k = none) :
    (upperBound before lo hi).bind found = some p ↔ Finds lo hi t := by
  obtain ⟨k, hk, hle, hiff⟩ : ∃ k, upperBound before lo hi = some k ∧ k ≤ max lo t ∧
      (k = t ↔ Finds lo hi t) := by
    unfold Finds
    rcases le_or_gt lo hi with hle | hgt
    · exact ⟨_, h hle, by omega, by omega⟩
    · exact ⟨lo, upperBound_empty _ hgt.le, by omega, by omega⟩
  rw [hk, bind_some, ← hiff]
  constructor
  · intro heq
    by_contra hne
    rw [hnone k hle hne] at heq
    exact nomatch heq
  · rintro rfl
    exact hp

/-- When the search for a one finds it. -/
theorem search1_iff (hR : R < lineCount (wordBits W) 256 nl) (hend : hi ≤ nl + 1)
    (hsel : IsSelect (wordBits W) R p) :
    (upperBoundLine1 mem R lo hi).bind (selectAt1 mem R) = some p ↔
      Finds lo hi (lineBound (wordBits W) 256 nl R) := by
  obtain ⟨q, hq, hsel'⟩ := selectAt1_eq h hR
  obtain rfl := hsel.unique hsel'
  exact search_iff (fun hle => upperBound_ones h.rlev1 hle hend) hq
    (fun k _ => selectAt1_none h hnl hR)

/-- When the search for a zero finds it. -/
theorem search0_iff (hR : R < lineCount (negBits (wordBits W)) 256 nl) (hlo : lo ≤ nl)
    (hend : hi ≤ nl + 1) (hsel : IsSelect (negBits (wordBits W)) R p) :
    (upperBoundLine0 mem R lo hi).bind (selectAt0 mem R) = some p ↔
      Finds lo hi (lineBound (negBits (wordBits W)) 256 nl R) := by
  obtain ⟨q, hq, hsel'⟩ := selectAt0_eq h hR
  obtain rfl := hsel.unique hsel'
  exact search_iff (fun hle => upperBound_zeros h.rlev1 hle hend) hq
    (fun k hk => selectAt0_none h hnl (hk.trans (max_le hlo (lineBound_le hR))))

end

/-- Word `j` behind the sentinel in an image with both caches and `Q0 = 4`: the
    select0 slots, then the select1 slots, each table closed by the number of
    lines. -/
def slotWord (F : Nat → Bool) (nl maxRank0 maxRank1 j : Nat) : Nat :=
  if j < slotCount 4 maxRank0 then slotLine (negBits F) 256 nl 64 j
  else if j = slotCount 4 maxRank0 then nl
  else if j - (slotCount 4 maxRank0 + 1) < slotCount 1 maxRank1 then
    slotLine F 256 nl 256 (j - (slotCount 4 maxRank0 + 1))
  else nl

theorem slotWord_le (F : Nat → Bool) (nl maxRank0 maxRank1 j : Nat) :
    slotWord F nl maxRank0 maxRank1 j ≤ nl + 1 := by
  have h0 := slotLine_le (negBits F) 256 nl 64 j
  have h1 := slotLine_le F 256 nl 256 (j - (slotCount 4 maxRank0 + 1))
  unfold slotWord
  split_ifs
  · exact h0
  · exact le_succ nl
  · exact h1
  · exact le_succ nl

variable {n : Nat} {c : Cache}

/-- The words of both tables, read from the start of the first. -/
theorem u32_slotWord (hok : CacheOk W n 4 c) (hw : Written n 4 1 c) {j : Nat}
    (hj : j ≤ slotCount 4 c.maxRank0 + 1 + slotCount 1 c.maxRank1) :
    c.mem.u32 (10 * (c.nlines + 1) + j)
      = some (slotWord (wordBits W) c.nlines c.maxRank0 c.maxRank1 j) := by
  unfold slotWord
  by_cases h0 : j ≤ slotCount 4 c.maxRank0
  · rw [hok.sel0 _ hw.ptr0 j h0]
    by_cases hlt : j < slotCount 4 c.maxRank0
    · rw [if_pos hlt, if_pos hlt]
      rfl
    · rw [if_neg hlt, if_neg hlt, if_pos (by omega)]
  · have h1 := hok.sel1 _ hw.ptr1 (j - (slotCount 4 c.maxRank0 + 1)) (by omega)
    rw [if_neg (by decide), add_assoc, Nat.add_sub_cancel' (by omega)] at h1
    rw [h1, if_neg (show ¬ j < slotCount 4 c.maxRank0 by omega),
      if_neg (show ¬ j = slotCount 4 c.maxRank0 by omega)]

/-- Where the loader looks for the select1 cache. -/
theorem fastSelect1Q_misread (hok : CacheOk W n 4 c) (hw : Written n 4 1 c) (hR : R < c.maxRank1)
    (hsel : IsSelect (wordBits W) R p) :
    fastSelect1Q 1 c.mem (10 * (c.nlines + 1) + (slotCount 1 c.maxRank0 + 1)) R = some p ↔
      Finds (slotWord (wordBits W) c.nlines c.maxRank0 c.maxRank1
          (slotCount 1 c.maxRank0 + 1 + R / 256))
        (slotWord (wordBits W) c.nlines c.maxRank0 c.maxRank1
          (slotCount 1 c.maxRank0 + 1 + (R / 256 + 1)))
        (lineBound (wordBits W) 256 c.nlines R) := by
  have hslot := div_lt_slotCount (Or.inl rfl) hok.max_le.2 hR
  -- four slots a line are more than one
  have hmore : slotCount 1 c.maxRank0 ≤ slotCount 4 c.maxRank0 := by
    show _ % 2 ^ 64 / 256 ≤ _ % 2 ^ 64 / 64
    omega
  show _ = some p ↔ _
  rw [show 256 / 1 = 256 from rfl] at hslot
  rw [fastSelect1Q, add_assoc, add_assoc (10 * (c.nlines + 1)), u32_slotWord hok hw (by omega),
    u32_slotWord hok hw (by omega)]
  exact search1_iff hok.indexed hok.small (hok.lt_lineCount1 hR) (slotWord_le _ _ _ _ _) hsel

end Misread

/-! ## The round trip -/

/-- The two words misread for every one of the sequence still lead to its line. -/
def MisreadFinds (B : List Bool) : Prop :=
  ∀ R, R < B.count true →
    Finds (slotWord (ofList B) (bitsToLines B.length) (B.count false) (B.count true)
        (slotCount 1 (B.count false) + 1 + R / 256))
      (slotWord (ofList B) (bitsToLines B.length) (B.count false) (B.count true)
        (slotCount 1 (B.count false) + 1 + (R / 256 + 1)))
      (lineBound (ofList B) 256 (bitsToLines B.length) R)

instance (B : List Bool) : Decidable (MisreadFinds B) :=
  inferInstanceAs (Decidable (∀ R, R < B.count true → _))

/-- The object attached to the image of a built one: the same, but for the address
    of its select1 cache. -/
theorem attach_stored (cls : IlClass) {B : List Bool} (hst : s.Stores B) (hn : B.length < 2 ^ 32)
    (junk : Nat → Nat) (speed0 speed1 : Bool) :
    ∃ c W, cls.buildCache junk s speed0 speed1 = some c ∧ wordBits W = ofList B ∧
      CacheOk W B.length (cls.q0 speed0) c ∧ Written B.length (cls.q0 speed0) speed1.toNat c ∧
      c.nlines = bitsToLines B.length ∧
      riskMmapFrom c.mem = some ⟨c.mem, c.nlines, c.size, c.maxRank0, c.maxRank1, c.fastSelect0,
        if speed1.toNat = 0 then none
        else some (10 * (c.nlines + 1) +
          if cls.q0 speed0 = 0 then 0 else slotCount 1 c.maxRank0 + 1)⟩ := by
  have hQ0 : cls.q0 speed0 = 0 ∨ cls.q0 speed0 = 1 ∨ cls.q0 speed0 = 4 := by
    cases cls <;> cases speed0 <;> decide
  have hQ1 : speed1.toNat = 0 ∨ speed1.toNat = 1 := by
    cases speed1 <;> decide
  have hbuild : cls.buildCache junk s speed0 speed1
      = buildCacheQ junk s (cls.q0 speed0) speed1.toNat := by
    cases cls with
    | il256 => rfl
    | il41 => rfl
  obtain ⟨c, W, hc, hok, hW, hnl, _⟩ := buildCacheQ_stored hst hn hQ0 hQ1 junk
  have hw := buildCacheQ_written hc
  rw [hst.size] at hw
  refine ⟨c, W, hbuild.trans hc, funext hW, hok, hw, hnl, riskMmapFrom_eq hok hw hnl ?_⟩
  intro i hi
  rw [hW i, ofList_out hi]

/-- Everything but select1 is the same in any case. -/
theorem sameAnswers_iff {cls : IlClass} {c' : Cache} {speed0 : Bool}
    (hok : CacheOk W n (cls.q0 speed0) c) (hw : Written n (cls.q0 speed0) Q1 c)
    (hc' : ∃ ptr, c' = ⟨c.mem, c.nlines, c.size, c.maxRank0, c.maxRank1, c.fastSelect0, ptr⟩) :
    SameAnswers cls c c' ↔
      ∀ R, R < c.maxRank1 → ∀ p, IsSelect (wordBits W) R p → select1 c' R = some p := by
  obtain ⟨ptr, rfl⟩ := hc'
  constructor
  · intro hsame R hR p hp
    obtain ⟨q, hq, hq'⟩ := hsame.select1 R hR
    obtain ⟨q', hsel, his⟩ := hok.select1_eq hR
    obtain rfl := his.unique hp
    rw [hq', ← hq, hsel]
  intro hsel1
  refine ⟨rfl, rfl, rfl, fun i hi => ?_, fun i hi => ?_, fun R hR => ?_, fun R hR => ?_⟩
  · have h := fastRank1_eq hok.indexed (le_trans (hok.size ▸ hi) hok.fits)
    exact ⟨_, h, h⟩
  · have h := fastRank1_eq hok.indexed (le_trans (hok.size ▸ hi) hok.fits)
    have h0 := congrArg (Option.map (wsub i)) h
    exact ⟨_, h0, h0⟩
  · obtain ⟨p, hp, his⟩ := hok.select1_eq hR
    exact ⟨p, hp, hsel1 R hR p his⟩
  have hQ : ∃ Q, (Q = 1 ∨ Q = 4) ∧ cls.select0 = select0Q Q ∧
      (cls.q0 speed0 = 0 ∨ cls.q0 speed0 = Q) := by
    cases cls with
    | il256 => exact ⟨1, Or.inl rfl, rfl, by cases speed0 <;> decide⟩
    | il41 => exact ⟨4, Or.inr rfl, rfl, by cases speed0 <;> decide⟩
  obtain ⟨Q, hQ, hsel, hQ0⟩ := hQ
  obtain ⟨p, hp, _⟩ := hok.select0_eq hQ
    (hQ0.imp_left (fun h => ⟨h, by rw [hw.ptr0, if_pos h]⟩)) hR
  rw [hsel]
  exact ⟨p, hp, hp⟩

/-- **THE IMAGE ROUND TRIP HOLDS EXACTLY WHEN** the class is `rank_select_il_256`, or
    one of the select caches is not wanted, or the words misread as select1 slots
    happen to lead every one to its line. -/
theorem risk_mmap_from_same_iff (cls : IlClass) (s : Il) (B : List Bool) (hst : s.Stores B)
    (hn : B.length < 2 ^ 32) (junk : Nat → Nat) (speed0 speed1 : Bool) :
    (∃ c c', cls.buildCache junk s speed0 speed1 = some c ∧ riskMmapFrom c.mem = some c' ∧
      SameAnswers cls c c') ↔
    (cls = .il41 → speed0 = true → speed1 = true → MisreadFinds B) := by
  obtain ⟨c, W, hc, hWB, hok, hw, hnl, hload⟩ := attach_stored cls hst hn junk speed0 speed1
  refine Iff.trans (b := SameAnswers cls c _) ⟨?_, fun hsame => ⟨c, _, hc, hload, hsame⟩⟩ ?_
  · rintro ⟨d, d', hd, hd', hsame⟩
    obtain rfl := mem_unique hc hd
    obtain rfl := mem_unique hload hd'
    exact hsame
  rw [sameAnswers_iff hok hw ⟨_, rfl⟩]
  by_cases hboth : cls = .il41 ∧ speed0 = true ∧ speed1 = true
  · -- the loader takes slots of the select0 cache for the select1 cache
    obtain ⟨rfl, rfl, rfl⟩ := hboth
    have hones : B.count true = c.maxRank1 := by
      rw [hok.max1, hWB, ones_ofList]
    have hzeros : B.count false = c.maxRank0 := by
      rw [hok.max0, hWB, ones_negBits_ofList]
    simp only [forall_const]
    unfold MisreadFinds
    rw [hones, hzeros, ← hnl, ← hWB]
    refine forall₂_congr (fun R hR => ?_)
    obtain ⟨p, _, hp⟩ := hok.select1_eq hR
    rw [← fastSelect1Q_misread hok hw hR hp]
    exact ⟨fun h => h p hp, fun h q hq => hq.unique hp ▸ h⟩
  -- writer and loader agree on the address
  have hptr : (if speed1.toNat = 0 then none
      else some (10 * (c.nlines + 1) +
        if cls.q0 speed0 = 0 then 0 else slotCount 1 c.maxRank0 + 1)) = c.fastSelect1 := by
    rw [hw.ptr1]
    cases speed1 with
    | false => rfl
    | true =>
      cases speed0 with
      | false => cases cls <;> rfl
      | true =>
        cases cls with
        | il256 => rfl
        | il41 => exact absurd ⟨rfl, rfl, rfl⟩ hboth
  rw [hptr]
  refine iff_of_true (fun R hR p hp => ?_) (fun h1 h2 h3 => absurd ⟨h1, h2, h3⟩ hboth)
  obtain ⟨q, hq, his⟩ := hok.select1_eq hR
  rw [← his.unique hp]
  exact hq

/-- 20 ones and 400 zeros in a `rank_select_il_256_32_41` with both caches: the slots misread lead
    to the right line. -/
theorem risk_mmap_from_same_two_lines :
    let s : Il := ⟨[{ Line.make false with bit64 := fun j => if j = 0 then 0xFFFFF else 0 },
      Line.make false], 420⟩
    s.Stores (replicate 20 true ++ replicate 400 false) ∧
    ∃ c c', IlClass.il41.buildCache (fun _ => 7) s true true = some c ∧
      riskMmapFrom c.mem = some c' ∧ SameAnswers .il41 c c' := by
  intro s
  have hst : s.Stores (replicate 20 true ++ replicate 400 false) :=
    ⟨by decide +kernel, by decide +kernel, by decide +kernel⟩
  refine ⟨hst, (risk_mmap_from_same_iff .il41 s _ hst (by decide +kernel) _ true true).mpr ?_⟩
  intro _ _ _
  decide +kernel

/-- 256 ones with both caches and `Q0 = 4`: the object finds the first one, the
    attached object takes the select0 slots `2, 2` for its range and runs out of
    the line. -/
theorem risk_mmap_from_41_fails :
    (Il.mk [Line.make true] 256).Stores (replicate 256 true) ∧
    ∃ c c', IlClass.il41.buildCache (fun _ => 0) ⟨[Line.make true], 256⟩ true true = some c ∧
      riskMmapFrom c.mem = some c' ∧ 0 < c.maxRank1 ∧ select1 c 0 = some 0 ∧
      select1 c' 0 = none := by
  refine ⟨⟨length_replicate.symm, rfl, by decide +kernel⟩, ?_⟩
  have h : ((IlClass.il41.buildCache (fun _ => 0) ⟨[Line.make true], 256⟩ true true).bind (fun c =>
      (riskMmapFrom c.mem).map (fun c' => (decide (0 < c.maxRank1), select1 c 0, select1 c' 0))))
        = some (true, some 0, none) := by
    decide +kernel
  obtain ⟨c, hc, h⟩ := bind_eq_some_iff.mp h
  obtain ⟨c', hc', h⟩ := map_eq_some_iff.mp h
  obtain ⟨h1, h2⟩ := Prod.mk.inj h
  obtain ⟨h2, h3⟩ := Prod.mk.inj h2
  exact ⟨c, c', hc, hc', of_decide_eq_true h1, h2, h3⟩

end RankSelectIl
