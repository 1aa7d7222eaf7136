import ToplingArk.RankSelectMixedProofs

/-! # `rank_select_mixed_il_256` — the round trip through an image

    Both dimensions are built, in either order, and a fresh object is attached to
    the image.  Writer and loader agree on where the caches of each dimension start,
    since both count the slots of the other dimension with the flag bits swapped.
    They agree on WHICH cache stands there only when both caches or none were asked
    for.  Otherwise the attached object searches with the slots of the other kind. -/

namespace RankSelectMixed

open BitCount Search RankSelectLine RankSelectIl List Option Function Nat

/-! ## Building both dimensions -/

/-- An object, not yet indexed, that stores the two sequences. -/
structure Stores (m : Mixed) (B : Fin 2 → List Bool) : Prop where
  size : ∀ d, m.size d = (B d).length
  flags : m.flags = 0
  tail : m.tail = []
  bits : match m.mixed with
    | none => ∀ d, B d = []
    | some mixed => ∀ d, bitsToLines (B d).length ≤ (mixed d).length ∧
        ∀ i, i < (B d).length → bits (mixed d) i = ofList (B d) i

variable {B : List Bool} {d : Fin 2} {ls : List Line} {m : Mixed} {mixed : Fin 2 → List Line}
  {flags : Nat} {size : Fin 2 → Nat} {W : Nat → BitVec 64}

/-- One `build_cache_dx` once its lines are prepared. -/
theorem buildCacheDx_eq {junk : Junk} {cols : Fin 2 → List Line} {used : Nat} {l : Line}
    (hmixed : m.mixed = some mixed) (hsize : m.size d = B.length) (hn : B.length < 2 ^ 32)
    (hlines : linesFor m.size = bitsToLines B.length)
    (hpre : prepare junk m mixed d = some (cols, flags, used)) (hcol : cols d = ls ++ [l])
    (hlen : ls.length = bitsToLines B.length)
    (hbits : ∀ i, i < B.length → RankSelectIl.bits ls i = ofList B i) (speed0 speed1 : Bool) :
    ∃ W col, wordBits W = ofList B ∧ Indexed W (bitsToLines B.length) col ∧
      buildCacheDx junk d speed0 speed1 m = some (finish junk m (Function.update cols d col)
        (setFlags flags d speed0 speed1) used (B.count true) d speed0 speed1
        (if speed0 then table false B else []) (if speed1 then table true B else [])) := by
  obtain ⟨W, hW, hidx, hrank⟩ := indexColumn_ok l hlen hn hbits
  obtain ⟨h0, h1⟩ := buildSel_eq_table hW hidx speed0 speed1
  refine ⟨W, _, hW, hidx, ?_⟩
  rw [buildCacheDx, if_neg (by rw [hsize, maxSize]; omega), hmixed]
  show (prepare junk m mixed d).bind _ = _
  rw [hpre, bind_some]
  dsimp only
  rw [hlines, hsize, hcol, hrank, wsub_count, h0, bind_some, h1, map_some]

/-- The sizes and the flags at the end of an image. -/
def trailer (n flags : Nat) : List Nat :=
  [n % 2 ^ 32, n % 2 ^ 32, flags % 2 ^ 32, flags / 2 ^ 32]

/-- The slots counted for a dimension with the flag bits swapped. -/
def miscounted (speed0 speed1 : Bool) (B : List Bool) : Nat :=
  (if speed1 then slotsFor (B.count false) + 1 else 0) +
    (if speed0 then slotsFor (B.count true) + 1 else 0)

variable (f : Fin 2)

/-- The flags after the first and after both builds. -/
def flagsFirst (speed0 speed1 : Bool) : Nat := setFlags 0 f speed0 speed1

/-- The flags once both dimensions are built. -/
def flagsBoth (speed0 speed1 : Fin 2 → Bool) : Nat :=
  setFlags (if other f = 0 then flagsFirst f (speed0 f) (speed1 f) ||| 1
    else flagsFirst f (speed0 f) (speed1 f)) (other f) (speed0 (other f)) (speed1 (other f))

/-- The flags of the first dimension. -/
theorem flagsFirst_bits (speed0 speed1 : Bool) :
    (flagsFirst f speed0 speed1).testBit (flagOffset f) = true ∧
    (flagsFirst f speed0 speed1).testBit (flagOffset f + 1) = speed1 ∧
    (flagsFirst f speed0 speed1).testBit (flagOffset f + 2) = speed0 := by
  revert f speed0 speed1
  decide

/-- The words behind the sentinel after both builds. -/
def imageTail (junk1 junk2 : Junk) (f : Fin 2) (speed0 speed1 : Fin 2 → Bool)
    (B : Fin 2 → List Bool) : List Nat :=
  writeTail junk2.word
    (writeTail junk1.word [] 0 (cacheWords (speed0 f) (speed1 f) (B f))
      (trailer (B 0).length (flagsFirst f (speed0 f) (speed1 f))))
    (miscounted (speed0 f) (speed1 f) (B f))
    (cacheWords (speed0 (other f)) (speed1 (other f)) (B (other f)))
    (trailer (B 0).length (flagsBoth f speed0 speed1))

theorem other_other : other (other f) = f := by
  revert f
  decide

theorem other_ne : other f ≠ f := by
  revert f
  decide

theorem eq_or_eq_other (d f : Fin 2) : d = f ∨ d = other f := by
  revert d f
  decide

/-- The lines that a build keeps of a dimension. -/
theorem take_column (h : bitsToLines B.length ≤ ls.length ∧
      ∀ i, i < B.length → bits ls i = ofList B i) :
    (ls.take (bitsToLines B.length)).length = bitsToLines B.length ∧ ∀ i, i < B.length →
      bits (ls.take (bitsToLines B.length)) i = ofList B i := by
  refine ⟨length_take.trans (min_eq_left h.1), fun i hi => ?_⟩
  rw [bits_take (by unfold bitsToLines; omega)]
  exact h.2 i hi

section Builds

variable {m : Mixed} {B : Fin 2 → List Bool} {f : Fin 2}

theorem linesFor_eq (hsize : ∀ d, size d = (B d).length) (hlen : ∀ d, (B d).length = (B 0).length)
    (d : Fin 2) : linesFor size = bitsToLines (B d).length := by
  rw [linesFor, hsize, hsize, hlen 1, max_self, hlen d]
  rfl

/-- The first build shrinks the memory to the lines. -/
theorem prepare_first (hst : Stores m B) (hlen : ∀ d, (B d).length = (B 0).length)
    (hpos : 0 < (B 0).length) (junk : Junk) (mixed : Fin 2 → List Line) :
    prepare junk m mixed f = some
      (fun e => (mixed e).take (bitsToLines (B e).length) ++ [junk.line e], 0, 0) := by
  have hnl : bitsToLines (B 0).length ≠ 0 := by
    unfold bitsToLines
    omega
  rw [prepare, hst.flags, zero_testBit, if_neg Bool.false_ne_true, linesFor_eq hst.size hlen 0,
    if_neg hnl]
  congr 2
  funext e
  rw [hlen e]

/-- The second build keeps the memory and counts the slots of the first dimension
    with the flag bits swapped. -/
theorem prepare_second {a b : Bool} (hflags : m.flags = flagsFirst f a b)
    (hmax0 : m.maxRank0 f = (B f).count false) (hmax1 : m.maxRank1 f = (B f).count true)
    (junk : Junk) (mixed : Fin 2 → List Line) :
    prepare junk m mixed (other f) = some (mixed,
      if other f = 0 then flagsFirst f a b ||| 1 else flagsFirst f a b, miscounted a b (B f)) := by
  obtain ⟨hbit, hbit1, hbit2⟩ := flagsFirst_bits f a b
  rw [prepare, other_other, hflags, hbit, hbit1, hbit2, hmax0, hmax1]
  rfl

/-- **BOTH BUILDS** of an object with memory and at least one bit. -/
theorem build_both (hst : Stores m B) (hlen : ∀ d, (B d).length = (B 0).length)
    (hn : (B 0).length < 2 ^ 32) (hpos : 0 < (B 0).length) (f : Fin 2)
    (speed0 speed1 : Fin 2 → Bool) (junk1 junk2 : Junk) :
    ∃ (m1 m2 : Mixed) (mixed : Fin 2 → List Line) (W : Fin 2 → Nat → BitVec 64),
      buildCacheDx junk1 f (speed0 f) (speed1 f) m = some m1 ∧
      buildCacheDx junk2 (other f) (speed0 (other f)) (speed1 (other f)) m1 = some m2 ∧
      m2.mixed = some mixed ∧
      (∀ d, wordBits (W d) = ofList (B d) ∧
        Indexed (W d) (bitsToLines (B d).length) (mixed d)) ∧
      m2.tail = imageTail junk1 junk2 f speed0 speed1 B := by
  have hbits := hst.bits
  cases hmixed : m.mixed with
  | none =>
    rw [hmixed] at hbits
    rw [hbits 0] at hpos
    exact absurd hpos (lt_irrefl 0)
  | some mx =>
    rw [hmixed] at hbits
    have hn' : ∀ d, (B d).length < 2 ^ 32 := by
      intro d
      rw [hlen d]
      exact hn
    have hlines := linesFor_eq hst.size hlen
    have hne := other_ne f
    obtain ⟨htake, hread⟩ := take_column (hbits f)
    obtain ⟨Wf, colf, hWf, hidxf, hb1⟩ := buildCacheDx_eq hmixed (hst.size f) (hn' f) (hlines f)
      (prepare_first hst hlen hpos junk1 mx) rfl htake hread (speed0 f) (speed1 f)
    generalize hm1 : finish junk1 m _ _ _ _ _ _ _ _ _ = m1 at hb1
    -- the second build finds the ranks that the first one left
    have hmax0 : m1.maxRank0 f = (B f).count false := by
      rw [← hm1]
      show update m.maxRank0 f _ f = _
      rw [update_self, hst.size, wsub_count]
    have hmax1 : m1.maxRank1 f = (B f).count true := by
      rw [← hm1]
      exact update_self ..
    obtain ⟨htake', hread'⟩ := take_column (hbits (other f))
    obtain ⟨Wg, colg, hWg, hidxg, hb2⟩ := buildCacheDx_eq (m := m1) (by rw [← hm1]; rfl)
      (by rw [← hm1]; exact hst.size _) (hn' _) (by rw [← hm1]; exact hlines _)
      (prepare_second (by rw [← hm1]; rfl) hmax0 hmax1 junk2 _) (update_of_ne hne ..) htake' hread'
      (speed0 (other f)) (speed1 (other f))
    refine ⟨m1, _, _, update (fun _ => Wg) f Wf, hb1, hb2, rfl, fun d => ?_, ?_⟩
    · rcases eq_or_eq_other d f with rfl | rfl
      · rw [update_self, update_of_ne hne.symm, update_self]
        exact ⟨hWf, hidxf⟩
      · rw [update_of_ne hne, update_self]
        exact ⟨hWg, hidxg⟩
    · rw [← hm1]
      show writeTail junk2.word (writeTail junk1.word m.tail _ _ [m.size 0 % 2 ^ 32,
        m.size 1 % 2 ^ 32, _, _]) _ _ [m.size 0 % 2 ^ 32, m.size 1 % 2 ^ 32, _, _] = _
      rw [hst.tail, hst.size, hst.size, hlen 1]
      rfl

end Builds

/-! ## Loading -/

/-- The flags of both dimensions. -/
theorem flagsBoth_bits (f d : Fin 2) (speed0 speed1 : Fin 2 → Bool) :
    (flagsBoth f speed0 speed1).testBit 0 = decide (f = 1) ∧
    (flagsBoth f speed0 speed1).testBit (flagOffset d) = true ∧
    (flagsBoth f speed0 speed1).testBit (flagOffset d + 1) = speed1 d ∧
    (flagsBoth f speed0 speed1).testBit (flagOffset d + 2) = speed0 d := by
  have hbits : ∀ f : Fin 2, ∀ a b c e : Bool,
      let flags := setFlags (if other f = 0 then flagsFirst f a b ||| 1 else flagsFirst f a b)
        (other f) c e
      flags.testBit 0 = decide (f = 1) ∧
      (flags.testBit (flagOffset f) = true ∧ flags.testBit (flagOffset f + 1) = b ∧
        flags.testBit (flagOffset f + 2) = a) ∧
      flags.testBit (flagOffset (other f)) = true ∧
      flags.testBit (flagOffset (other f) + 1) = e ∧
      flags.testBit (flagOffset (other f) + 2) = c := by
    decide
  obtain ⟨h0, hf, hg⟩ := hbits f (speed0 f) (speed1 f) (speed0 (other f)) (speed1 (other f))
  rcases eq_or_eq_other d f with rfl | rfl
  · exact ⟨h0, hf⟩
  · exact ⟨h0, hg⟩

/-- One load: the flag bits are taken the wrong way round. -/
theorem load_eq {speed0 speed1 : Bool} (hW : wordBits W = ofList B)
    (hidx : Indexed W (bitsToLines B.length) (mixed d)) (hsize : size d = B.length)
    (hlines : linesFor size = bitsToLines B.length) (hbit : flags.testBit (flagOffset d) = true)
    (hbit1 : flags.testBit (flagOffset d + 1) = speed1)
    (hbit2 : flags.testBit (flagOffset d + 2) = speed0) (index : Nat) :
    ∃ ld, load mixed size flags d index = some ld ∧
      ld.sel0Cache = (if speed1 then some index else none) ∧
      ld.sel1Cache = (if speed0 then
        some (index + if speed1 then slotsFor (B.count false) + 1 else 0) else none) ∧
      ld.selectIndex = index + miscounted speed0 speed1 B := by
  obtain ⟨l, hl, hr, _⟩ := hidx.last
  have hrank : l.rlev1 = B.count true := by
    rw [hr, hW, ← ones_ofList]
    exact ones_eq_of_zeros (by unfold bitsToLines; omega) (fun p hp _ => ofList_out hp)
  rw [load, hbit, hlines, hl, map_some]
  dsimp only
  rw [hbit1, hbit2, hrank, hsize, wsub_count]
  refine ⟨_, rfl, rfl, ?_, ?_⟩
  · cases speed1 <;> rfl
  · cases speed0 <;> cases speed1 <;> simp [miscounted, add_assoc]

/-- Where the caches of a dimension start. -/
def cacheOffset (speed0 speed1 : Fin 2 → Bool) (B : Fin 2 → List Bool) (d : Fin 2) : Nat :=
  if d = f then 0 else miscounted (speed0 f) (speed1 f) (B f)

/-- **THE ATTACHED OBJECT**: each dimension's caches are looked for where they
    start, those for the zeros if `speed_select1` was asked for and those for the
    ones if `speed_select0` was. -/
theorem riskMmapFrom_both {W : Fin 2 → Nat → BitVec 64} {B : Fin 2 → List Bool}
    (hlen : ∀ d, (B d).length = (B 0).length) (hn : (B 0).length < 2 ^ 32)
    (hW : ∀ d, wordBits (W d) = ofList (B d) ∧
      Indexed (W d) (bitsToLines (B d).length) (mixed d)) (junk1 junk2 : Junk) (f : Fin 2)
    (speed0 speed1 : Fin 2 → Bool) :
    ∃ m, riskMmapFrom mixed (imageTail junk1 junk2 f speed0 speed1 B) = some m ∧
      m.mixed = some mixed ∧ m.tail = imageTail junk1 junk2 f speed0 speed1 B ∧
      ∀ d, m.size d = (B d).length ∧
        m.sel0Cache d = (if speed1 d then some (cacheOffset f speed0 speed1 B d) else none) ∧
        m.sel1Cache d = (if speed0 d then some (cacheOffset f speed0 speed1 B d +
          if speed1 d then slotsFor ((B d).count false) + 1 else 0) else none) := by
  generalize htail : imageTail junk1 junk2 f speed0 speed1 B = tail
  have hlong : 4 ≤ tail.length := by
    rw [← htail, imageTail, writeTail_length rfl, capAfter]
    omega
  -- the trailer is at the end of the tail
  have hread : ∀ i, i < 4 → tail[tail.length - (4 - i)]?
      = (trailer (B 0).length (flagsBoth f speed0 speed1))[i]? := by
    intro i hi
    rw [show tail.length - (4 - i) = tail.length - 4 + i by omega, ← htail]
    exact writeTail_trailer rfl hi
  have hmod : (B 0).length % 2 ^ 32 = (B 0).length := mod_eq_of_lt hn
  have r0 : tail[tail.length - 4]? = some (B 0).length :=
    (hread 0 (by decide)).trans (congrArg some hmod)
  have r1 : tail[tail.length - 3]? = some (B 0).length :=
    (hread 1 (by decide)).trans (congrArg some hmod)
  have r2 : tail[tail.length - 2]? = some (flagsBoth f speed0 speed1 % 2 ^ 32) :=
    hread 2 (by decide)
  have r3 : tail[tail.length - 1]? = some (flagsBoth f speed0 speed1 / 2 ^ 32) :=
    hread 3 (by decide)
  have hsize : ∀ d, (![(B 0).length, (B 0).length] : Fin 2 → Nat) d = (B d).length := by
    intro d
    rw [hlen d]
    rcases eq_or_eq_other d 0 with rfl | rfl
    · rfl
    · rfl
  have hlines := linesFor_eq hsize hlen
  -- the lowest flag names the dimension built first
  have hfirst : (if (flagsBoth f speed0 speed1).testBit 0 then (1 : Fin 2) else 0) = f := by
    have hdec : ∀ f : Fin 2, (if decide (f = 1) = true then (1 : Fin 2) else 0) = f := by
      decide
    rw [(flagsBoth_bits f f speed0 speed1).1]
    exact hdec f
  obtain ⟨_, b0, b1, b2⟩ := flagsBoth_bits f f speed0 speed1
  obtain ⟨_, c0, c1, c2⟩ := flagsBoth_bits f (other f) speed0 speed1
  -- the second cache begins where the first one ends
  obtain ⟨lf, hlf, f0, f1, f2⟩ := load_eq (hW f).1 (hW f).2 (hsize f) (hlines f) b0 b1 b2 0
  obtain ⟨lg, hlg, g0, g1, _⟩ := load_eq (hW (other f)).1 (hW (other f)).2 (hsize _) (hlines _)
    c0 c1 c2 lf.selectIndex
  refine ⟨attach mixed tail ![(B 0).length, (B 0).length] (flagsBoth f speed0 speed1)
    (fun d => if d = f then lf else lg), ?_, rfl, rfl, fun d => ⟨hsize d, ?_, ?_⟩⟩
  · rw [riskMmapFrom, r0, r1, r2, r3]
    show (load mixed _ _ _ 0).bind _ = _
    rw [mod_add_div, hfirst, hlf, bind_some, hlg, map_some]
  · show (if d = f then lf else lg).sel0Cache = _
    rcases eq_or_eq_other d f with rfl | rfl
    · rw [if_pos rfl, f0, cacheOffset, if_pos rfl]
    · rw [if_neg (other_ne f), g0, f2, zero_add, cacheOffset, if_neg (other_ne f)]
  · show (if d = f then lf else lg).sel1Cache = _
    rcases eq_or_eq_other d f with rfl | rfl
    · rw [if_pos rfl, f1, cacheOffset, if_pos rfl]
    · rw [if_neg (other_ne f), g1, f2, zero_add, cacheOffset, if_neg (other_ne f)]

/-! ## The words each dimension finds -/

section Words

variable {junk1 junk2 : Junk} {f : Fin 2} {speed0 speed1 : Fin 2 → Bool} {B : Fin 2 → List Bool}

/-- The number of words the caches of a dimension take. -/
def cacheSize (speed0 speed1 : Fin 2 → Bool) (B : Fin 2 → List Bool) (d : Fin 2) : Nat :=
  (cacheWords (speed0 d) (speed1 d) (B d)).length

/-- A word of padding stands behind the caches of a dimension. -/
def paddedAt (f : Fin 2) (speed0 speed1 : Fin 2 → Bool) (B : Fin 2 → List Bool) (d : Fin 2) :
    Prop :=
  if d = f then padded 0 0 (cacheSize speed0 speed1 B d)
  else padded (capAfter 0 0 (cacheSize speed0 speed1 B f))
    (miscounted (speed0 f) (speed1 f) (B f)) (cacheSize speed0 speed1 B d)

instance (f : Fin 2) (speed0 speed1 : Fin 2 → Bool) (B : Fin 2 → List Bool) (d : Fin 2) :
    Decidable (paddedAt f speed0 speed1 B d) := by
  unfold paddedAt
  infer_instance

/-- The caches of a dimension stand at their offset, as far as the second build has
    left them. -/
theorem image_cache {j : Nat} (hj : j < cacheSize speed0 speed1 B d)
    (hkept : d = f → j < miscounted (speed0 f) (speed1 f) (B f)) :
    (imageTail junk1 junk2 f speed0 speed1 B)[cacheOffset f speed0 speed1 B d + j]?
      = (cacheWords (speed0 d) (speed1 d) (B d))[j]? := by
  rcases eq_or_eq_other d f with rfl | rfl
  · have hold : j < capAfter 0 0 (cacheSize speed0 speed1 B d) := by
      unfold capAfter
      omega
    rw [cacheOffset, if_pos rfl, zero_add, imageTail, writeTail_low (hkept rfl)
      (by rw [writeTail_length rfl]; exact hold)]
    have h := @writeTail_sel j junk1.word [] 0 _ (trailer (B 0).length
      (flagsFirst d (speed0 d) (speed1 d))) hj
    rwa [zero_add] at h
  · rw [cacheOffset, if_neg (other_ne f)]
    exact writeTail_sel hj

/-- The word behind the caches: padding or the size. -/
theorem image_next (hn : (B 0).length < 2 ^ 32)
    (hkept : d = f → cacheSize speed0 speed1 B d < miscounted (speed0 f) (speed1 f) (B f)) :
    (imageTail junk1 junk2 f speed0 speed1 B)[cacheOffset f speed0 speed1 B d +
        cacheSize speed0 speed1 B d]?
      = some (if paddedAt f speed0 speed1 B d then 0 else (B 0).length) := by
  have hword : ∀ flags, (trailer (B 0).length flags)[0]? = some (B 0).length := by
    intro flags
    rw [trailer, mod_eq_of_lt hn]
    rfl
  rcases eq_or_eq_other d f with rfl | rfl
  · have hold : cacheSize speed0 speed1 B d < capAfter 0 0 (cacheSize speed0 speed1 B d) := by
      unfold capAfter
      omega
    have hiff : paddedAt d speed0 speed1 B d ↔ padded 0 0 (cacheSize speed0 speed1 B d) := by
      unfold paddedAt
      rw [if_pos rfl]
    have h := @writeTail_next junk1.word [] 0 (cacheWords (speed0 d) (speed1 d) (B d))
      (trailer (B 0).length (flagsFirst d (speed0 d) (speed1 d)))
    rw [zero_add, hword, ← apply_ite some] at h
    rw [cacheOffset, if_pos rfl, zero_add, imageTail, writeTail_low (hkept rfl)
      (by rw [writeTail_length rfl]; exact hold), if_congr hiff rfl rfl]
    exact h
  have hiff : paddedAt f speed0 speed1 B (other f) ↔
      padded (capAfter 0 0 (cacheSize speed0 speed1 B f))
        (miscounted (speed0 f) (speed1 f) (B f)) (cacheSize speed0 speed1 B (other f)) := by
    unfold paddedAt
    rw [if_neg (other_ne f)]
  rw [cacheOffset, if_neg (other_ne f), if_congr hiff rfl rfl]
  refine writeTail_next.trans ?_
  rw [hword, ← apply_ite some, writeTail_length rfl]
  rfl

end Words

/-! ## Searching one dimension -/

section Search

variable {W : Nat → BitVec 64} {nl R lo hi p : Nat} {img : Image}

/-- The search for a one or a zero in a range of lines. -/
def searchLine (b : Bool) (img : Image) (R lo hi : Nat) : Option Nat :=
  if b then (upperBoundLine1 img R lo hi).bind (selectAt1 img R)
  else (upperBoundLine0 img R lo hi).bind (selectAt0 img R)

/-- A range that starts at a line and ends no later than behind the sentinel leads to
    the bit exactly when it leads to its line. -/
theorem searchLine_iff (b : Bool) (h : Indexed W nl img.body) (hnl : nl ≤ 2 ^ 24)
    (hR : R < lineCount (kind b (wordBits W)) 256 nl) (hlo : lo ≤ nl) (hend : hi ≤ nl + 1)
    (hsel : IsSelect (kind b (wordBits W)) R p) :
    searchLine b img R lo hi = some p ↔
      Finds lo hi (lineBound (kind b (wordBits W)) 256 nl R) := by
  cases b with
  | false => exact search0_iff h hnl hR hlo hend hsel
  | true => exact search1_iff h hnl hR hend hsel

/-- A range whose middle lies behind the sentinel leads nowhere. -/
theorem searchLine_outside (b : Bool) (h : Indexed W nl img.body) (htail : img.tail = [])
    (hlt : lo < hi) (hmid : nl < (lo + hi) / 2) : searchLine b img R lo hi = none := by
  have hread : img.rlev1 ((lo + hi) / 2) = none := by
    rw [Image.rlev1, getElem?_eq_none (by rw [h.length]; omega), htail]
    rfl
  cases b with
  | false =>
    show (upperBoundLine0 img R lo hi).bind _ = _
    rw [upperBoundLine0, upperBound_none hlt (by rw [hread]; rfl), bind_none]
  | true =>
    show (upperBoundLine1 img R lo hi).bind _ = _
    rw [upperBoundLine1, upperBound_none hlt (by rw [hread]; rfl), bind_none]

end Search

/-! ## Selecting in one dimension -/

/-- The line boundary a search for bit `R` of a kind has to find. -/
def bound (b : Bool) (B : List Bool) (R : Nat) : Nat :=
  lineBound (kind b (ofList B)) 256 (bitsToLines B.length) R

/-- The words misread as slots of kind `a` (they are slots of the other kind, then
    the number of lines, then a word of padding or the size) still lead every bit of
    the kind to its line. -/
def MisreadFinds (a : Bool) (B : List Bool) (P : Prop) : Prop :=
  ∀ R, R < B.count a →
    if R / 256 < slotsFor (B.count (!a)) then
      Finds (entry (!a) B (R / 256)) (entry (!a) B (R / 256 + 1)) (bound a B R)
    else bound a B R = bitsToLines B.length ∧ (P ∨ B.length ≤ 2)

/-- `select1_dx` or `select0_dx`, and the cache it uses. -/
def selectKind (b : Bool) (m : Mixed) (d : Fin 2) (R : Nat) : Option Nat :=
  if b then select1 m d R else select0 m d R

/-- The cache of ones or zeros. -/
def selCache (b : Bool) (m : Mixed) (d : Fin 2) : Option Nat :=
  if b then m.sel1Cache d else m.sel0Cache d

section Dimension

variable {m : Mixed} {mixed : Fin 2 → List Line} {d : Fin 2} {W : Nat → BitVec 64} {B : List Bool}
  {b : Bool} {R p q lo hi : Nat} {P : Prop}

/-- Selecting is a range and a search in it. -/
theorem selectKind_eq (hmixed : m.mixed = some mixed) :
    selectKind b m d R = (range m (selCache b m d) d R).bind (fun r =>
      searchLine b ⟨mixed d, []⟩ R r.1 r.2) := by
  cases b with
  | false =>
    show select0 m d R = _
    rw [select0, view, hmixed]
    rfl
  | true =>
    show select1 m d R = _
    rw [select1, view, hmixed]
    rfl

/-- All such bits are in the lines. -/
theorem count_le_lineCount (b : Bool) (B : List Bool) :
    B.count b ≤ lineCount (kind b (ofList B)) 256 (bitsToLines B.length) := by
  rw [← ones_kind]
  exact ones_mono _ (by unfold bitsToLines; omega)

theorem bound_le (hR : R < B.count b) : bound b B R ≤ bitsToLines B.length :=
  lineBound_le (hR.trans_le (count_le_lineCount b B))

/-- Every rank below the count is that of some bit. -/
theorem exists_select_kind (hR : R < B.count b) :
    ∃ p, p < B.length ∧ IsSelect (kind b (ofList B)) R p := by
  rw [← ones_kind] at hR
  obtain ⟨p, _, hlt, hp⟩ := exists_isSelect (a := 0) (zero_le R) hR
  exact ⟨p, hlt, hp⟩

/-- In the last line at most 256 bits of a kind are left. -/
theorem count_le_of_bound (hR : R < B.count b) (h : bound b B R = bitsToLines B.length) :
    B.count b ≤ R + 256 := by
  obtain ⟨k, hk, _, hlo, _⟩ := lineBound_spec (hR.trans_le (count_le_lineCount b B))
  have hadd := ones_add_le (kind b (ofList B)) (256 * k) 256
  have hcount := count_le_lineCount b B
  rw [← h, bound, hk, lineCount, mul_succ] at hcount
  omega

theorem bound_mono {R' : Nat} (h : R ≤ R') : bound b B R ≤ bound b B R' :=
  firstGe_mono (succ_le_succ h)

/-- A cached line is one of the lines. -/
theorem entry_le (b : Bool) (B : List Bool) (j : Nat) : entry b B j ≤ bitsToLines B.length := by
  unfold entry
  split
  next hj =>
    by_contra hlt
    have h1 := (lt_slotLine_iff le_rfl).mp (not_le.mp hlt)
    have h2 := slotsFor_level hj
    have h3 := count_le_lineCount b B
    omega
  · rfl

/-- The slots of the right kind enclose every bound. -/
theorem entry_encloses (hR : R < B.count b) (hn : B.length < 2 ^ 32) :
    R / 256 < slotsFor (B.count b) ∧ entry b B (R / 256) ≤ bound b B R ∧
      bound b B R ≤ entry b B (R / 256 + 1) := by
  have hmax : B.count b ≤ 2 ^ 32 := by
    have := count_le_length (a := b) (l := B)
    omega
  have hslot : R / 256 < slotsFor (B.count b) := div_lt_slotCount (Or.inl rfl) hmax hR
  obtain ⟨h1, h2⟩ := slots_enclose (q := 256) (slotsFor (B.count b)) (by decide)
    (hR.trans_le (count_le_lineCount b B))
  refine ⟨hslot, ?_, h2⟩
  rw [entry, if_pos hslot]
  exact h1

/-- Dimension `d` of the object holds the sequence and its counts. -/
structure HoldsDim (m : Mixed) (mixed : Fin 2 → List Line) (d : Fin 2) (B : List Bool)
    (W : Nat → BitVec 64) : Prop where
  cells : m.mixed = some mixed
  size : m.size d = B.length
  lt : B.length < 2 ^ 32
  bits : wordBits W = ofList B
  indexed : Indexed W (bitsToLines B.length) (mixed d)

variable (h : HoldsDim m mixed d B W)

include h

/-- The search ends in the right line, if the range has it. -/
theorem HoldsDim.search_bound (hR : R < B.count b) (hsel : IsSelect (kind b (ofList B)) R p)
    (hlo : lo ≤ bitsToLines B.length) (hhi : hi ≤ bitsToLines B.length + 1) :
    searchLine b ⟨mixed d, []⟩ R lo hi = some p ↔ Finds lo hi (bound b B R) := by
  have hn := h.lt
  have hnl : bitsToLines B.length ≤ 2 ^ 24 := by
    unfold bitsToLines
    omega
  have hline := hR.trans_le (count_le_lineCount b B)
  rw [← h.bits] at hsel hline
  have hiff : searchLine b ⟨mixed d, []⟩ R lo hi = some p ↔ _ :=
    searchLine_iff b h.indexed hnl hline hlo hhi hsel
  rw [hiff, bound, h.bits]

/-- Without a cache every bit is found. -/
theorem HoldsDim.select_uncached (hsel : selCache b m d = none) (hR : R < B.count b)
    (hp : IsSelect (kind b (ofList B)) R p) : selectKind b m d R = some p := by
  rw [selectKind_eq h.cells, hsel, range, h.size]
  have hhi : (B.length + 256 + 1) / 256 ≤ bitsToLines B.length + 1 ∧
      bitsToLines B.length ≤ (B.length + 256 + 1) / 256 := by
    unfold bitsToLines
    omega
  refine (h.search_bound hR hp (zero_le _) hhi.1).mpr (Or.inr ⟨zero_le _, ?_⟩)
  exact (bound_le hR).trans hhi.2

/-- With a cache the two slots are searched. -/
theorem HoldsDim.select_cached (hsel : selCache b m d = some q)
    (hlo : m.tail[q + R / 256]? = some lo) (hhi : m.tail[q + (R / 256 + 1)]? = some hi) :
    selectKind b m d R = searchLine b ⟨mixed d, []⟩ R lo hi := by
  rw [selectKind_eq h.cells, hsel, range, hlo, bind_some, hhi, map_some, bind_some]

/-- With the right slots every bit is found. -/
theorem HoldsDim.select_right (hsel : selCache b m d = some q)
    (hwords : ∀ j, j ≤ slotsFor (B.count b) → m.tail[q + j]? = some (entry b B j))
    (hR : R < B.count b) (hp : IsSelect (kind b (ofList B)) R p) :
    selectKind b m d R = some p := by
  obtain ⟨hslot, hlo, hhi⟩ := entry_encloses hR h.lt
  rw [h.select_cached hsel (hwords _ hslot.le) (hwords _ hslot)]
  exact (h.search_bound hR hp (entry_le _ _ _)
    (le_succ_of_le (entry_le _ _ _))).mpr (Or.inr ⟨hlo, hhi⟩)

/-- At the end of the misread table the range starts at the last line boundary and
    ends at the padding or at the size. -/
theorem HoldsDim.select_behind [Decidable P] (hpos : 0 < B.length) (hsel : selCache b m d = some q)
    (hj : R / 256 = slotsFor (B.count (!b)))
    (hlo : m.tail[q + R / 256]? = some (entry (!b) B (R / 256)))
    (hhi : m.tail[q + (R / 256 + 1)]? = some (if P then 0 else B.length)) (hR : R < B.count b)
    (hp : IsSelect (kind b (ofList B)) R p) :
    selectKind b m d R = some p ↔ bound b B R = bitsToLines B.length ∧ (P ∨ B.length ≤ 2) := by
  have hle := bound_le hR
  have hlast : entry (!b) B (R / 256) = bitsToLines B.length := by
    rw [hj, entry, if_neg (lt_irrefl _)]
  have hnl : bitsToLines B.length = (B.length + 255) / 256 := rfl
  rw [h.select_cached hsel hlo hhi, hlast]
  by_cases hor : P ∨ B.length ≤ 2
  · have hshort : (if P then 0 else B.length) ≤ bitsToLines B.length + 1 := by
      split
      · exact zero_le _
      · have := hor.resolve_left (by assumption)
        omega
    rw [h.search_bound hR hp le_rfl hshort, Finds]
    constructor
    · intro h
      exact ⟨by omega, hor⟩
    · intro h
      exact Or.inl h.1.symm
  · -- the size, taken for a line number, is far behind the lines
    rw [not_or] at hor
    rw [if_neg hor.1, searchLine_outside b h.indexed rfl (by omega) (by omega)]
    exact iff_of_false (fun h => nomatch h) (fun h => h.2.elim hor.1 hor.2)

/-- **THE WRONG SLOTS** lead every bit to its place exactly when they lead it to its
    line. -/
theorem HoldsDim.select_misread_iff [Decidable P] (hpos : 0 < B.length)
    (hsel : selCache b m d = some q)
    (hwords : ∀ j, j ≤ slotsFor (B.count (!b)) → j ≤ slotsFor (B.count b) →
      m.tail[q + j]? = some (entry (!b) B j))
    (hnext : slotsFor (B.count (!b)) < slotsFor (B.count b) →
      m.tail[q + (slotsFor (B.count (!b)) + 1)]? = some (if P then 0 else B.length)) :
    (∀ R, R < B.count b → ∀ p, IsSelect (kind b (ofList B)) R p → selectKind b m d R = some p) ↔
      MisreadFinds b B P := by
  -- inside the table
  have hin : ∀ R, R < B.count b → R / 256 < slotsFor (B.count (!b)) → ∀ p,
      IsSelect (kind b (ofList B)) R p → (selectKind b m d R = some p ↔
        Finds (entry (!b) B (R / 256)) (entry (!b) B (R / 256 + 1)) (bound b B R)) := by
    intro R hR hj p hp
    obtain ⟨hslot, _, _⟩ := entry_encloses hR h.lt
    rw [h.select_cached hsel (hwords _ (by omega) (by omega)) (hwords _ (by omega) (by omega))]
    exact h.search_bound hR hp (entry_le _ _ _) (le_succ_of_le (entry_le _ _ _))
  -- right behind it
  have hend : ∀ R, R < B.count b → R / 256 = slotsFor (B.count (!b)) → ∀ p,
      IsSelect (kind b (ofList B)) R p → (selectKind b m d R = some p ↔
        bound b B R = bitsToLines B.length ∧ (P ∨ B.length ≤ 2)) := by
    intro R hR hj p hp
    obtain ⟨hslot, _, _⟩ := entry_encloses hR h.lt
    refine h.select_behind hpos hsel hj (hwords _ (by omega) (by omega)) ?_ hR hp
    rw [hj]
    exact hnext (by omega)
  constructor
  · intro h R hR
    by_cases hj : R / 256 < slotsFor (B.count (!b))
    · rw [if_pos hj]
      obtain ⟨p, _, hp⟩ := exists_select_kind hR
      exact (hin R hR hj p hp).mp (h R hR p hp)
    -- the first rank behind the table decides about all of them
    rw [if_neg hj]
    have hfirst : 256 * slotsFor (B.count (!b)) ≤ R := by omega
    have hlt : 256 * slotsFor (B.count (!b)) < B.count b := by omega
    obtain ⟨p, _, hp⟩ := exists_select_kind hlt
    obtain ⟨hbound, hor⟩ := (hend _ hlt (by omega) p hp).mp (h _ hlt p hp)
    have hmono := bound_mono (b := b) (B := B) hfirst
    have := bound_le hR
    exact ⟨by omega, hor⟩
  intro h R hR p hp
  have hR' := h R hR
  by_cases hj : R / 256 < slotsFor (B.count (!b))
  · rw [if_pos hj] at hR'
    exact (hin R hR hj p hp).mpr hR'
  · -- only the last line is left, so there is only one slot behind the table
    rw [if_neg hj] at hR'
    have hfirst := h (256 * slotsFor (B.count (!b))) (by omega)
    rw [if_neg (by omega)] at hfirst
    have hone := count_le_of_bound (by omega) hfirst.1
    exact (hend R hR (by omega) p hp).mpr hR'

end Dimension

/-! ## The round trip -/

/-- The dimension answers like the sequence. -/
structure Answers (m : Mixed) (d : Fin 2) (B : List Bool) : Prop where
  rank1 : ∀ i, i ≤ B.length → rank1 m d i = some (ones (ofList B) i)
  rank0 : ∀ i, i ≤ B.length → rank0 m d i = some (ones (negBits (ofList B)) i)
  select1 : ∀ k, k < B.count true → ∃ p, select1 m d k = some p ∧ p < B.length ∧
    IsSelect (ofList B) k p
  select0 : ∀ k, k < B.count false → ∃ p, select0 m d k = some p ∧ p < B.length ∧
    IsSelect (negBits (ofList B)) k p

/-- Rank is right in any case, so only select decides. -/
theorem HoldsDim.answers_iff (h : HoldsDim m mixed d B W) :
    Answers m d B ↔ ∀ b R, R < B.count b → ∀ p, IsSelect (kind b (ofList B)) R p →
      selectKind b m d R = some p := by
  have hrank : ∀ i, i ≤ B.length → rank1 m d i = some (ones (ofList B) i) := by
    intro i hi
    rw [rank1, view, h.cells, ← h.bits]
    exact fastRank1_eq h.indexed (hi.trans (by unfold bitsToLines; omega))
  constructor
  · intro hans b R hR p hp
    cases b with
    | false =>
      obtain ⟨q, hq, _, hsel⟩ := hans.select0 R hR
      rw [hp.unique hsel]
      exact hq
    | true =>
      obtain ⟨q, hq, _, hsel⟩ := hans.select1 R hR
      rw [hp.unique hsel]
      exact hq
  · intro hsel
    refine ⟨hrank, fun i hi => ?_, fun k hk => ?_, fun k hk => ?_⟩
    · rw [rank0, hrank i hi, map_some, wsub_ones]
    · obtain ⟨p, hlt, hp⟩ := exists_select_kind (b := true) hk
      exact ⟨p, hsel true k hk p hp, hlt, hp⟩
    · obtain ⟨p, hlt, hp⟩ := exists_select_kind (b := false) hk
      exact ⟨p, hsel false k hk p hp, hlt, hp⟩

theorem cacheWords_one (a : Bool) (B : List Bool) : cacheWords a (!a) B = table (!a) B := by
  cases a with
  | false => rfl
  | true => exact append_nil _

theorem miscounted_one (a : Bool) (B : List Bool) :
    miscounted a (!a) B = slotsFor (B.count a) + 1 := by
  cases a with
  | false => rfl
  | true => exact zero_add _

section RoundTrip

variable {junk1 junk2 : Junk} {f d : Fin 2} {speed0 speed1 : Fin 2 → Bool} {B : Fin 2 → List Bool}
  {m : Mixed} {mixed : Fin 2 → List Line} {W : Nat → BitVec 64} {R p : Nat}

variable (h : HoldsDim m mixed d (B d) W) (hlen : (B d).length = (B 0).length)
  (htail : m.tail = imageTail junk1 junk2 f speed0 speed1 B)
  (hsel0 : m.sel0Cache d = if speed1 d then some (cacheOffset f speed0 speed1 B d) else none)
  (hsel1 : m.sel1Cache d = if speed0 d then some (cacheOffset f speed0 speed1 B d +
    if speed1 d then slotsFor ((B d).count false) + 1 else 0) else none)

include h hsel0 hsel1 in
/-- Without caches selecting works. -/
theorem attached_none (h0 : speed0 d = false) (h1 : speed1 d = false) (b : Bool)
    (hR : R < (B d).count b) (hp : IsSelect (kind b (ofList (B d))) R p) :
    selectKind b m d R = some p := by
  have hnone : selCache b m d = none := by
    rw [h1] at hsel0
    rw [h0] at hsel1
    cases b with
    | false => exact hsel0
    | true => exact hsel1
  exact h.select_uncached hnone hR hp

include h htail hsel0 hsel1 in
/-- A dimension with both caches: they stand in the order in which they are read. -/
theorem attached_both (h0 : speed0 d = true) (h1 : speed1 d = true) (b : Bool)
    (hR : R < (B d).count b) (hp : IsSelect (kind b (ofList (B d))) R p) :
    selectKind b m d R = some p := by
  rw [h1] at hsel0
  rw [h0, h1] at hsel1
  have hwords : cacheWords (speed0 d) (speed1 d) (B d) = table false (B d) ++ table true (B d) := by
    rw [h0, h1]
    rfl
  have hcount : cacheSize speed0 speed1 B d
      = slotsFor ((B d).count false) + 1 + (slotsFor ((B d).count true) + 1) := by
    rw [cacheSize, hwords, length_append, table_length, table_length]
  have hkept : d = f → cacheSize speed0 speed1 B d = miscounted (speed0 f) (speed1 f) (B f) := by
    rintro rfl
    rw [hcount, h0, h1]
    rfl
  have hread : ∀ j, j < cacheSize speed0 speed1 B d →
      m.tail[cacheOffset f speed0 speed1 B d + j]?
        = (table false (B d) ++ table true (B d))[j]? := by
    intro j hj
    rw [htail, image_cache hj (fun hd => by rw [← hkept hd]; exact hj), hwords]
  have hlf := table_length false (B d)
  cases b with
  | false =>
    refine h.select_right hsel0 (fun j hj => ?_) hR hp
    rw [hread j (by omega), getElem?_append_left (by omega), table_get _ _ hj]
  | true =>
    refine h.select_right hsel1 (fun j hj => ?_) hR hp
    rw [if_pos rfl, add_assoc, hread _ (by omega),
      getElem?_append_right (by omega), hlf, Nat.add_sub_cancel_left, table_get _ _ hj]

include h hlen htail hsel0 hsel1 in
/-- A dimension with one cache: it is taken for the other one. -/
theorem attached_one (hpos : 0 < (B 0).length) (h1 : speed1 d = !speed0 d) :
    (∀ b R, R < (B d).count b → ∀ p, IsSelect (kind b (ofList (B d))) R p →
      selectKind b m d R = some p) ↔
      MisreadFinds (speed0 d) (B d) (paddedAt f speed0 speed1 B d) := by
  have hwords : cacheWords (speed0 d) (speed1 d) (B d) = table (speed1 d) (B d) := by
    rw [h1]
    exact cacheWords_one _ _
  have hcount : cacheSize speed0 speed1 B d = slotsFor ((B d).count (speed1 d)) + 1 := by
    rw [cacheSize, hwords, table_length]
  have hkept : d = f → miscounted (speed0 f) (speed1 f) (B f)
      = slotsFor ((B d).count (speed0 d)) + 1 := by
    rintro rfl
    rw [h1, miscounted_one]
  have hcaches : selCache (speed0 d) m d = some (cacheOffset f speed0 speed1 B d) ∧
      selCache (!speed0 d) m d = none := by
    rw [h1] at hsel0 hsel1
    cases h0 : speed0 d with
    | false =>
      rw [h0] at hsel0 hsel1
      exact ⟨hsel0, hsel1⟩
    | true =>
      rw [h0] at hsel0 hsel1
      exact ⟨hsel1, hsel0⟩
  -- the cache of one kind is read as that of the other, and behind its end
  have hmis := h.select_misread_iff (P := paddedAt f speed0 speed1 B d) (by omega) hcaches.1
    (fun j hj ha => by
      rw [← h1] at hj ⊢
      rw [htail, image_cache (by omega) (fun hd => by rw [hkept hd]; omega), hwords,
        table_get _ _ hj])
    (fun hlt => by
      rw [← h1] at hlt ⊢
      rw [htail, ← hcount, image_next (hlen ▸ h.lt) (fun hd => by rw [hkept hd]; omega), hlen])
  rw [← hmis]
  constructor
  · intro hall R hR
    exact hall (speed0 d) R hR
  · intro hasked b R hR p hp
    by_cases hb : b = speed0 d
    · rw [hb] at hR hp ⊢
      exact hasked R hR p hp
    · obtain rfl : b = !speed0 d := Bool.eq_not.mpr hb
      exact h.select_uncached hcaches.2 hR hp

include h hlen htail hsel0 hsel1 in
/-- **ONE DIMENSION OF THE ATTACHED OBJECT** answers right exactly when both caches
    or none were asked for, or the misread slots do no harm. -/
theorem attached_answers_iff (hpos : 0 < (B 0).length) :
    Answers m d (B d) ↔
      (speed0 d = speed1 d ∨ MisreadFinds (speed0 d) (B d) (paddedAt f speed0 speed1 B d)) := by
  rw [h.answers_iff]
  by_cases heq : speed0 d = speed1 d
  · refine iff_of_true (fun b R hR p hp => ?_) (Or.inl heq)
    cases h0 : speed0 d with
    | false => exact attached_none h hsel0 hsel1 h0 (heq ▸ h0) b hR hp
    | true => exact attached_both h htail hsel0 hsel1 h0 (heq ▸ h0) b hR hp
  · rw [attached_one h hlen htail hsel0 hsel1 hpos (Bool.eq_not.mpr (Ne.symm heq))]
    exact ⟨Or.inr, fun hor => hor.resolve_left heq⟩

end RoundTrip

/-- Building both dimensions, dimension `f` first, and attaching a fresh object to
    the image gives the two sequences back. -/
def RoundTrip (junk1 junk2 : Junk) (m : Mixed) (B : Fin 2 → List Bool) (f : Fin 2)
    (speed0 speed1 : Fin 2 → Bool) : Prop :=
  ∃ m1 m2 mixed m3, buildCacheDx junk1 f (speed0 f) (speed1 f) m = some m1 ∧
    buildCacheDx junk2 (other f) (speed0 (other f)) (speed1 (other f)) m1 = some m2 ∧
    m2.mixed = some mixed ∧ riskMmapFrom mixed m2.tail = some m3 ∧ ∀ d, Answers m3 d (B d)

/-- An object without bits has no image: either nothing is built or the memory is
    shrunk to nothing. -/
theorem not_roundTrip_empty {B : Fin 2 → List Bool} (hst : Stores m B)
    (hzero : ∀ d, (B d).length = 0) (junk1 junk2 : Junk) (f : Fin 2)
    (speed0 speed1 : Fin 2 → Bool) :
    ¬ RoundTrip junk1 junk2 m B f speed0 speed1 := by
  rintro ⟨m1, m2, mixed, m3, h1, h2, hmixed, _⟩
  have hsmall : ∀ d, ¬ m.size d > maxSize := by
    intro d
    rw [hst.size d, hzero d]
    exact not_lt_zero _
  cases hm : m.mixed with
  | none =>
    rw [buildCacheDx, if_neg (hsmall f), hm] at h1
    obtain rfl := some.inj h1
    rw [buildCacheDx, if_neg (hsmall _), hm] at h2
    obtain rfl := some.inj h2
    rw [hm] at hmixed
    exact nomatch hmixed
  | some mx =>
    have hlines : linesFor m.size = 0 := by
      rw [linesFor, hst.size, hst.size, hzero, hzero]
      rfl
    have hpre : prepare junk1 m mx f = none := by
      rw [prepare, hst.flags, zero_testBit, if_neg Bool.false_ne_true, if_pos hlines]
    rw [buildCacheDx, if_neg (hsmall f), hm] at h1
    have h1' : (prepare junk1 m mx f).bind _ = some m1 := h1
    rw [hpre] at h1'
    exact nomatch h1'

/-- **THE IMAGE ROUND TRIP OF BOTH DIMENSIONS HOLDS EXACTLY WHEN** there is a bit and
    in each dimension both select caches or none are asked for, or the slots of the
    one kind lead every bit of the other kind to its line. -/
theorem mixed_round_trip_iff (m : Mixed) (B : Fin 2 → List Bool) (hst : Stores m B)
    (hlen : ∀ d, (B d).length = (B 0).length) (hn : (B 0).length < 2 ^ 32) (f : Fin 2)
    (speed0 speed1 : Fin 2 → Bool) (junk1 junk2 : Junk) :
    RoundTrip junk1 junk2 m B f speed0 speed1 ↔
      (0 < (B 0).length ∧ ∀ d, speed0 d = speed1 d ∨
        MisreadFinds (speed0 d) (B d) (paddedAt f speed0 speed1 B d)) := by
  by_cases hpos : 0 < (B 0).length
  · obtain ⟨m1, m2, mixed, W, hb1, hb2, hmx, hW, htail⟩ :=
      build_both hst hlen hn hpos f speed0 speed1 junk1 junk2
    obtain ⟨m3, hload, hmx3, htail3, hsel⟩ :=
      riskMmapFrom_both hlen hn hW junk1 junk2 f speed0 speed1
    have hdim := fun d => attached_answers_iff ⟨hmx3, (hsel d).1, hlen d ▸ hn, (hW d).1, (hW d).2⟩
      (hlen d) htail3 (hsel d).2.1 (hsel d).2.2 hpos
    constructor
    · rintro ⟨n1, n2, mixed', n3, h1, h2, h3, h4, hans⟩
      obtain rfl := mem_unique hb1 h1
      obtain rfl := mem_unique hb2 h2
      obtain rfl := mem_unique hmx h3
      rw [htail] at h4
      obtain rfl := mem_unique hload h4
      exact ⟨hpos, fun d => (hdim d).mp (hans d)⟩
    · rintro ⟨_, hcond⟩
      exact ⟨m1, m2, mixed, m3, hb1, hb2, hmx, by rw [htail]; exact hload,
        fun d => (hdim d).mpr (hcond d)⟩
  · have hzero : ∀ d, (B d).length = 0 := by
      intro d
      rw [hlen d]
      omega
    exact iff_of_false (not_roundTrip_empty hst hzero junk1 junk2 f speed0 speed1)
      (fun h => hpos h.1)

/-- The lines of an object that holds the same bit everywhere in a dimension. -/
def uniform (v0 v1 : Bool) (n : Nat) : Mixed :=
  ⟨some ![replicate (bitsToLines n) (Line.make v0), replicate (bitsToLines n) (Line.make v1)],
    [], fun _ => n, 0, fun _ => none, fun _ => none, fun _ => 0, fun _ => 0⟩

/-- Three ones and three zeros, built in the order 1, 0 with all caches. -/
theorem mixed_round_trip_three :
    Stores (uniform true false 3) ![replicate 3 true, replicate 3 false] ∧
    (RoundTrip ⟨fun _ => Line.make true, fun _ => 9⟩ ⟨fun _ => Line.make true, fun _ => 9⟩
        (uniform true false 3) ![replicate 3 true, replicate 3 false] 1
        (fun _ => true) (fun _ => true) ↔
      (0 < 3 ∧ ∀ d : Fin 2, true = true ∨
        MisreadFinds true (![replicate 3 true, replicate 3 false] d)
          (paddedAt 1 (fun _ => true) (fun _ => true)
            ![replicate 3 true, replicate 3 false] d))) := by
  have hst : Stores (uniform true false 3) ![replicate 3 true, replicate 3 false] :=
    ⟨by decide, rfl, rfl, show ∀ d : Fin 2, _ by decide⟩
  exact ⟨hst, mixed_round_trip_iff _ _ hst (by decide) (by decide) 1 (fun _ => true)
    (fun _ => true) _ _⟩

/-- 257 ones in dimension 0, built with `speed_select0` only: the attached object
    takes the end mark of the select0 cache for the line of the first one. -/
theorem mixed_round_trip_fails :
    Stores (uniform true false 257) ![replicate 257 true, replicate 257 false] ∧
    ∃ m1 m2 mixed m3,
      buildCacheDx ⟨fun _ => Line.make false, fun _ => 0⟩ 0 true false (uniform true false 257)
        = some m1 ∧
      buildCacheDx ⟨fun _ => Line.make false, fun _ => 0⟩ 1 false false m1 = some m2 ∧
      m2.mixed = some mixed ∧ riskMmapFrom mixed m2.tail = some m3 ∧ select1 m3 0 0 = none ∧
      ¬ Answers m3 0 (replicate 257 true) := by
  have hst : Stores (uniform true false 257) ![replicate 257 true, replicate 257 false] :=
    ⟨by decide +kernel, rfl, rfl, show ∀ d : Fin 2, _ by decide +kernel⟩
  have h : ((buildCacheDx ⟨fun _ => Line.make false, fun _ => 0⟩ 0 true false
      (uniform true false 257)).bind (fun m1 =>
        (buildCacheDx ⟨fun _ => Line.make false, fun _ => 0⟩ 1 false false m1).bind (fun m2 =>
          m2.mixed.bind (fun mixed => (riskMmapFrom mixed m2.tail).map (fun m3 =>
            select1 m3 0 0))))) = some none := by
    decide +kernel
  obtain ⟨m1, h1, h⟩ := bind_eq_some_iff.mp h
  obtain ⟨m2, h2, h⟩ := bind_eq_some_iff.mp h
  obtain ⟨mixed, h3, h⟩ := bind_eq_some_iff.mp h
  obtain ⟨m3, h4, h⟩ := map_eq_some_iff.mp h
  refine ⟨hst, m1, m2, mixed, m3, h1, h2, h3, h4, h, fun hans => ?_⟩
  obtain ⟨p, hp, _⟩ := hans.select1 0 (by decide +kernel)
  rw [h] at hp
  exact nomatch hp

end RankSelectMixed
