import ToplingArk.RankSelectIlCacheProofs
import ToplingArk.RankSelectSimpleProofs

/-! # Rank and select over the four classes

    `rank_select_il_256`, `rank_select_se_256`, `rank_select_se_512` and
    `rank_select_simple` against one specification: a stored bit sequence, an
    index built with either choice of the two speed flags, and the answers `Face`
    of the built object.

    The three classes over a `febitvec` return from `build_cache` at once when
    there are no words.  An object that never allocated any stores the empty
    sequence, for which `rank1(0)` is a legal question; it is then asked of a rank
    cache that is `NULL`. -/

namespace RankSelect

open BitCount Search RankSelectLine Option

/-- An object of one of the classes, before its index is built. -/
inductive Vec where
  | il (s : RankSelectIl.Il)
  | se256 (v : RankSelectSe.FeBitVec)
  | se512 (v : RankSelectSe.FeBitVec)
  | simple (v : RankSelectSe.FeBitVec)

/-- The object stores the sequence `B`; what its lines or words hold behind the
    size is left open. -/
def Vec.Stores : Vec → List Bool → Prop
  | .il s, B => s.Stores B
  | .se256 v, B => RankSelectSe.Stores v B
  | .se512 v, B => RankSelectSe.Stores v B
  | .simple v, B => RankSelectSe.Stores v B

/-- The object has memory to put an index into: always for the interleaved class,
    otherwise when `m_words` is not `NULL`. -/
def Vec.Allocated : Vec → Prop
  | .il _ => True
  | .se256 v => v.words.isSome
  | .se512 v => v.words.isSome
  | .simple v => v.words.isSome

/-- The classes with select caches. -/
def Vec.hasSelectCaches : Vec → Bool
  | .simple _ => false
  | _ => true

/-- Contents of memory that `build_cache` allocates and does not write. -/
structure Junk where
  slots : Nat → Nat
  fresh : Nat → BitVec 64
  behind : Nat → BitVec 64

/-- What a built object answers; the static select functions need a select cache. -/
structure Face where
  maxRank0 : Nat
  maxRank1 : Nat
  rank0 : Nat → Option Nat
  rank1 : Nat → Option Nat
  select0 : Nat → Option Nat
  select1 : Nat → Option Nat
  fastRank0 : Nat → Option Nat
  fastRank1 : Nat → Option Nat
  fastSelect0 : Option (Nat → Option Nat)
  fastSelect1 : Option (Nat → Option Nat)

/-- The answers of an interleaved object. -/
def ilFace (c : RankSelectIl.Cache) : Face where
  maxRank0 := c.maxRank0
  maxRank1 := c.maxRank1
  rank0 := RankSelectIl.rank0 c
  rank1 := RankSelectIl.rank1 c
  select0 := RankSelectIl.select0 c
  select1 := RankSelectIl.select1 c
  fastRank0 := RankSelectIl.fastRank0 c.mem
  fastRank1 := RankSelectIl.fastRank1 c.mem
  fastSelect0 := c.fastSelect0.map (RankSelectIl.fastSelect0Q 1 c.mem)
  fastSelect1 := c.fastSelect1.map (RankSelectIl.fastSelect1Q 1 c.mem)

/-- The answers of a separate-area object, member functions and static ones on its
    own pointers. -/
def seFace {ρ : Type} (C : RankSelectSe.SeClass ρ) (c : RankSelectSe.Se ρ) : Face where
  maxRank0 := c.maxRank0
  maxRank1 := c.maxRank1
  rank0 := fun i => (C.rank1 c i).map (wsub i)
  rank1 := C.rank1 c
  select0 := C.select0 c
  select1 := C.select1 c
  fastRank0 := fun i => (c.words.bind (fun bits => c.rankCache.bind (fun rc =>
    C.fastRank1 bits rc i))).map (wsub i)
  fastRank1 := fun i => c.words.bind (fun bits => c.rankCache.bind (fun rc =>
    C.fastRank1 bits rc i))
  fastSelect0 := c.sel0Cache.map (fun sel R => c.words.bind (fun bits =>
    c.rankCache.bind (fun rc => C.fastSelect0 bits sel rc R)))
  fastSelect1 := c.sel1Cache.map (fun sel R => c.words.bind (fun bits =>
    c.rankCache.bind (fun rc => C.fastSelect1 bits sel rc R)))

/-- The answers of a `rank_select_simple`; its static select functions throw and
    its select caches are always `NULL`. -/
def simpleFace (c : RankSelectSe.Se Nat) : Face where
  maxRank0 := c.maxRank0
  maxRank1 := c.maxRank1
  rank0 := fun i => (RankSelectSimple.rank1 c i).map (wsub i)
  rank1 := RankSelectSimple.rank1 c
  select0 := RankSelectSimple.select0 c
  select1 := RankSelectSimple.select1 c
  fastRank0 := fun i => (c.words.bind (fun bits => c.rankCache.bind (fun rc =>
    RankSelectSimple.fastRank1 bits rc i))).map (wsub i)
  fastRank1 := fun i => c.words.bind (fun bits => c.rankCache.bind (fun rc =>
    RankSelectSimple.fastRank1 bits rc i))
  fastSelect0 := none
  fastSelect1 := none

/-- `build_cache(speed_select0, speed_select1)` of the object's class. -/
def Vec.build (junk : Junk) (speed0 speed1 : Bool) : Vec → Option Face
  | .il s => (RankSelectIl.buildCache junk.slots s speed0 speed1).map ilFace
  | .se256 v => (RankSelectSe.se256.buildCache junk.fresh junk.behind v speed0 speed1).map
      (seFace RankSelectSe.se256)
  | .se512 v => (RankSelectSe.se512.buildCache junk.fresh junk.behind v speed0 speed1).map
      (seFace RankSelectSe.se512)
  | .simple v => (RankSelectSimple.buildCache junk.fresh junk.behind v speed0 speed1).map
      simpleFace

/-- The answers are those of the sequence `B`. -/
structure Correct (B : List Bool) (f : Face) : Prop where
  max1 : f.maxRank1 = B.count true
  max0 : f.maxRank0 = B.count false
  rank1 : ∀ i, i ≤ B.length → f.rank1 i = some (ones (ofList B) i)
  rank0 : ∀ i, i ≤ B.length → f.rank0 i = some (ones (negBits (ofList B)) i)
  select1 : ∀ k, k < f.maxRank1 → ∃ p, f.select1 k = some p ∧ p < B.length ∧
    IsSelect (ofList B) k p
  select0 : ∀ k, k < f.maxRank0 → ∃ p, f.select0 k = some p ∧ p < B.length ∧
    IsSelect (negBits (ofList B)) k p
  fastRank1 : ∀ i, i ≤ B.length → f.fastRank1 i = f.rank1 i
  fastRank0 : ∀ i, i ≤ B.length → f.fastRank0 i = f.rank0 i
  fastSelect1 : ∀ g, f.fastSelect1 = some g → ∀ k, k < f.maxRank1 → g k = f.select1 k
  fastSelect0 : ∀ g, f.fastSelect0 = some g → ∀ k, k < f.maxRank0 → g k = f.select0 k

variable {B : List Bool}

/-- Answers about a sequence `F` that reads like `B` are answers about `B`. -/
theorem correct_of_bits {f : Face} {F : Nat → Bool} (hF : ∀ i, i < B.length → F i = ofList B i)
    (hmax1 : f.maxRank1 = ones F B.length) (hmax0 : f.maxRank0 = ones (negBits F) B.length)
    (hrank1 : ∀ i, i ≤ B.length → f.rank1 i = some (ones F i))
    (hrank0 : ∀ i, f.rank0 i = (f.rank1 i).map (wsub i)) (hfast1 : ∀ i, f.fastRank1 i = f.rank1 i)
    (hfast0 : ∀ i, f.fastRank0 i = f.rank0 i)
    (hsel1 : ∀ k, k < f.maxRank1 → ∃ p, f.select1 k = some p ∧ IsSelect F k p)
    (hsel0 : ∀ k, k < f.maxRank0 → ∃ p, f.select0 k = some p ∧ IsSelect (negBits F) k p)
    (hfs1 : ∀ g, f.fastSelect1 = some g → ∀ k, k < f.maxRank1 →
      ∃ p, g k = some p ∧ IsSelect F k p)
    (hfs0 : ∀ g, f.fastSelect0 = some g → ∀ k, k < f.maxRank0 →
      ∃ p, g k = some p ∧ IsSelect (negBits F) k p) : Correct B f := by
  have hones : ∀ i, i ≤ B.length → ones F i = ones (ofList B) i :=
    fun i hi => ones_congr (fun j hj => hF j (by omega))
  have hneg : ∀ i, i < B.length → negBits F i = negBits (ofList B) i :=
    fun i hi => congrArg (!·) (hF i hi)
  have hzeros : ∀ i, i ≤ B.length → ones (negBits F) i = ones (negBits (ofList B)) i :=
    fun i hi => ones_congr (fun j hj => hneg j (by omega))
  refine ⟨?_, ?_, ?_, ?_, ?_, ?_, fun i _ => hfast1 i, fun i _ => hfast0 i, ?_, ?_⟩
  · rw [hmax1, hones _ le_rfl, ones_ofList]
  · rw [hmax0, hzeros _ le_rfl, ones_negBits_ofList]
  · intro i hi
    rw [hrank1 i hi, hones i hi]
  · intro i hi
    rw [hrank0, hrank1 i hi, hones i hi, map_some, wsub_ones]
  · intro k hk
    obtain ⟨p, hp, hsel⟩ := hsel1 k hk
    rw [hmax1] at hk
    have hlt := hsel.lt_of_lt_ones hk
    exact ⟨p, hp, hlt, hsel.congr hlt hF⟩
  · intro k hk
    obtain ⟨p, hp, hsel⟩ := hsel0 k hk
    rw [hmax0] at hk
    have hlt := hsel.lt_of_lt_ones hk
    exact ⟨p, hp, hlt, hsel.congr hlt hneg⟩
  -- the fast form finds a bit of the same rank, so the same bit
  · intro g hg k hk
    obtain ⟨p, hp, hsel⟩ := hfs1 g hg k hk
    obtain ⟨q, hq, hsel'⟩ := hsel1 k hk
    rw [hp, hq, hsel.unique hsel']
  · intro g hg k hk
    obtain ⟨p, hp, hsel⟩ := hfs0 g hg k hk
    obtain ⟨q, hq, hsel'⟩ := hsel0 k hk
    rw [hp, hq, hsel.unique hsel']

/-! ## Each class -/

/-- What the index of a class has to provide for a sequence: an object that answers
    correctly and has the select caches the flags ask for. -/
def Answers (v : Vec) (B : List Bool) (junk : Junk) (speed0 speed1 : Bool) : Prop :=
  ∃ f, v.build junk speed0 speed1 = some f ∧ Correct B f ∧
    (v.hasSelectCaches → f.fastSelect0.isSome = speed0 ∧ f.fastSelect1.isSome = speed1)

/-- The interleaved vector answers. -/
theorem il_answers {s : RankSelectIl.Il} (hst : s.Stores B) (hn : B.length < 2 ^ 32) (junk : Junk)
    (speed0 speed1 : Bool) : Answers (.il s) B junk speed0 speed1 := by
  obtain ⟨c, W, hc, hok, hW, _, hs0, hs1⟩ := RankSelectIl.buildCacheQ_stored hst hn
    ((RankSelectIl.toNat_quantum speed0).imp_right .inl) (RankSelectIl.toNat_quantum speed1)
    junk.slots
  have hrank : ∀ i, i ≤ B.length → RankSelectIl.fastRank1 c.mem i = some (ones (wordBits W) i) :=
    fun i hi => RankSelectIl.fastRank1_eq hok.indexed (hi.trans hok.fits)
  -- with the flag off the object has no select cache to be read with the wrong quantum
  have hQ : speed0.toNat = 0 ∧ c.fastSelect0 = none ∨ speed0.toNat = 1 := by
    cases speed0 with
    | false => exact Or.inl ⟨rfl, isSome_eq_false_iff.mp hs0 |> isNone_iff_eq_none.mp⟩
    | true => exact Or.inr rfl
  refine ⟨ilFace c, ?_, ?_, fun _ => ⟨?_, ?_⟩⟩
  · show (RankSelectIl.buildCacheQ junk.slots s _ _).map ilFace = _
    rw [hc]
    rfl
  · refine correct_of_bits (fun i _ => hW i) hok.max1 hok.max0 hrank (fun _ => rfl) (fun _ => rfl)
      (fun _ => rfl)
      (fun k hk => hok.select1_eq hk) (fun k hk => hok.select0_eq (Or.inl rfl) hQ hk) ?_ ?_
    · intro g hg k hk
      obtain ⟨p, hp, rfl⟩ := map_eq_some_iff.mp hg
      exact hok.fastSelect1_eq hp hk
    · intro g hg k hk
      obtain ⟨p, hp, rfl⟩ := map_eq_some_iff.mp hg
      rcases hQ with ⟨_, hnone⟩ | hQ
      · rw [hp] at hnone
        exact nomatch hnone
      · rw [hQ] at hok
        exact hok.fastSelect0_eq (Or.inl rfl) hp hk
  · show (c.fastSelect0.map _).isSome = _
    rw [isSome_map, hs0]
    cases speed0 <;> rfl
  · show (c.fastSelect1.map _).isSome = _
    rw [isSome_map, hs1]
    cases speed1 <;> rfl

section Separate

open RankSelectSe

variable {v : FeBitVec} {ρ : Type}

/-- Both separate-area classes, once the words are there. -/
theorem se_correct {C : SeClass ρ} (hC : LawfulLev C) (hst : RankSelectSe.Stores v B)
    (hn : B.length < 2 ^ 32) (hw : v.words.isSome) (fresh behind : Nat → BitVec 64)
    (speed0 speed1 : Bool) :
    ∃ f, (C.buildCache fresh behind v speed0 speed1).map (seFace C) = some f ∧ Correct B f ∧
      f.fastSelect0.isSome = speed0 ∧ f.fastSelect1.isSome = speed1 := by
  obtain ⟨ws, hws⟩ := isSome_iff_exists.mp hw
  have hsize : v.size = B.length := hst.1
  have hclean := (preparedWords_bits hC.toLawful fresh ws v.size).1
  obtain ⟨c, hc, hok, hs0, hs1⟩ := buildIndex_ok hC.toLawful (by omega) hclean behind speed0 speed1
  have hn' : v.size < 2 ^ 32 := by omega
  obtain ⟨bits, hbits, hsame⟩ := hok.words
  refine ⟨seFace C c, ?_, ?_, isSome_map.trans hs0, isSome_map.trans hs1⟩
  · rw [SeClass.buildCache, if_neg (by omega), hws]
    exact congrArg (Option.map (seFace C)) hc
  refine correct_of_bits (F := wordBits (C.preparedWords fresh ws v.size))
    (fun i hi => prepared_ofList hC.toLawful hst hws fresh (by omega)) (hsize ▸ hok.max1)
    (hsize ▸ hok.max0) (fun i hi => hok.rank1_eq hC hn' hclean (by omega)) (fun _ => rfl)
    (fun _ => rfl) (fun _ => rfl) (fun k hk => hok.select1_eq hC.toLawful hn' hclean hk)
    (fun k hk => hok.select0_eq hC.toLawful hn' hclean hk) ?_ ?_
  · intro g hg k hk
    obtain ⟨s, hs, rfl⟩ := map_eq_some_iff.mp hg
    show ∃ p, c.words.bind _ = some p ∧ _
    rw [hbits, hok.cache]
    exact hok.fastSelect1_eq hsame hC.toLawful hn' hclean hs hk
  · intro g hg k hk
    obtain ⟨s, hs, rfl⟩ := map_eq_some_iff.mp hg
    show ∃ p, c.words.bind _ = some p ∧ _
    rw [hbits, hok.cache]
    exact hok.fastSelect0_eq hsame hC.toLawful hn' hclean hs hk

/-- The simple vector answers. -/
theorem simple_answers (hst : RankSelectSe.Stores v B) (hn : B.length < 2 ^ 32)
    (hw : v.words.isSome) (junk : Junk) (speed0 speed1 : Bool) :
    Answers (.simple v) B junk speed0 speed1 := by
  obtain ⟨ws, hws⟩ := isSome_iff_exists.mp hw
  have hsize : v.size = B.length := hst.1
  have hn' : v.size < 2 ^ 32 := by omega
  have hC := RankSelectSimple.simple_lawful
  have hclean := (preparedWords_bits hC junk.fresh ws v.size).1
  have hok := RankSelectSimple.built_ok hclean junk.behind
  refine ⟨simpleFace (RankSelectSimple.simple.built
    (RankSelectSimple.simple.preparedWords junk.fresh ws v.size) junk.behind v.size none none),
    ?_, ?_, fun h => nomatch h⟩
  · show (RankSelectSimple.buildCache _ _ _ _ _).map _ = _
    rw [RankSelectSimple.buildCache, if_neg (by omega), hws]
    rfl
  · exact correct_of_bits (fun i hi => prepared_ofList hC hst hws junk.fresh (by omega))
      (hsize ▸ hok.max1) (hsize ▸ hok.max0)
      (fun i hi => RankSelectSimple.rank1_eq hn' hclean hok (by omega)) (fun _ => rfl)
      (fun _ => rfl) (fun _ => rfl) (fun k hk => RankSelectSimple.select1_eq hn' hclean hok hk)
      (fun k hk => RankSelectSimple.select0_eq hn' hclean hok hk) (fun g hg => nomatch hg)
      (fun g hg => nomatch hg)

/-- Without words the rank cache is `NULL` and `rank1(0)` reads it. -/
theorem se_null {C : SeClass ρ} (hw : v.words = none) (fresh behind : Nat → BitVec 64)
    (speed0 speed1 : Bool) {c : Se ρ} (h : C.buildCache fresh behind v speed0 speed1 = some c) :
    C.rank1 c 0 = none := by
  obtain ⟨-, h⟩ := ite_none_left_eq_some.mp h
  rw [hw] at h
  rw [← some.inj h]
  rfl

/-- Without words the simple vector has no ranks. -/
theorem simple_null (hw : v.words = none) (fresh behind : Nat → BitVec 64) (speed0 speed1 : Bool)
    {c : Se Nat} (h : RankSelectSimple.buildCache fresh behind v speed0 speed1 = some c) :
    RankSelectSimple.rank1 c 0 = none := by
  obtain ⟨-, h⟩ := ite_none_left_eq_some.mp h
  rw [hw] at h
  rw [← some.inj h]
  rfl

end Separate

/-- An object without memory cannot answer `rank1(0)`. -/
theorem not_answers_of_null {v : Vec} (hv : ¬ v.Allocated) (B : List Bool) (junk : Junk)
    (speed0 speed1 : Bool) : ¬ Answers v B junk speed0 speed1 := by
  rintro ⟨f, hf, hcorrect, _⟩
  have hzero : f.rank1 0 = none := by
    cases v with
    | il s => exact absurd trivial hv
    | se256 w =>
      obtain ⟨c, hc, rfl⟩ := map_eq_some_iff.mp hf
      exact se_null (not_isSome_iff_eq_none.mp hv) _ _ _ _ hc
    | se512 w =>
      obtain ⟨c, hc, rfl⟩ := map_eq_some_iff.mp hf
      exact se_null (not_isSome_iff_eq_none.mp hv) _ _ _ _ hc
    | simple w =>
      obtain ⟨c, hc, rfl⟩ := map_eq_some_iff.mp hf
      exact simple_null (not_isSome_iff_eq_none.mp hv) _ _ _ _ hc
  have h := hcorrect.rank1 0 (Nat.zero_le _)
  rw [hzero] at h
  exact nomatch h

/-- Every vector that is allocated answers. -/
theorem answers_of_allocated {v : Vec} (hst : v.Stores B) (hn : B.length < 2 ^ 32)
    (hv : v.Allocated) (junk : Junk) (speed0 speed1 : Bool) : Answers v B junk speed0 speed1 := by
  cases v with
  | il s => exact il_answers hst hn junk speed0 speed1
  | se256 w =>
    obtain ⟨f, hf, hcorrect, hsel⟩ := se_correct RankSelectSe.se256_lawful hst hn hv junk.fresh
      junk.behind speed0 speed1
    exact ⟨f, hf, hcorrect, fun _ => hsel⟩
  | se512 w =>
    obtain ⟨f, hf, hcorrect, hsel⟩ := se_correct RankSelectSe.se512_lawful hst hn hv junk.fresh
      junk.behind speed0 speed1
    exact ⟨f, hf, hcorrect, fun _ => hsel⟩
  | simple w => exact simple_answers hst hn hv junk speed0 speed1

/-- **RANK AND SELECT ANSWER CORRECTLY EXACTLY WHEN THERE IS MEMORY**: an object of
    any of the four classes that stores a sequence of fewer than `2^32` bits builds
    an index that answers like the sequence, for both flags and whatever the fresh
    memory holds, if and only if it is not a separate-area object without words. -/
theorem rank_select_answers_iff (v : Vec) (B : List Bool) (hst : v.Stores B)
    (hn : B.length < 2 ^ 32) :
    (∀ junk speed0 speed1, Answers v B junk speed0 speed1) ↔ v.Allocated := by
  constructor
  · intro h
    by_contra hv
    exact not_answers_of_null hv B ⟨fun _ => 0, fun _ => 0, fun _ => 0⟩ true true (h _ _ _)
  · intro hv junk speed0 speed1
    exact answers_of_allocated hst hn hv junk speed0 speed1

/-- Three bits in a `rank_select_se_512` with an allocated word. -/
theorem rank_select_answers_three :
    (Vec.se512 ⟨some [0x35], 3⟩).Stores [true, false, true] ∧
    ((∀ junk speed0 speed1, Answers (.se512 ⟨some [0x35], 3⟩)
      [true, false, true] junk speed0 speed1)
      ↔ (Vec.se512 ⟨some [0x35], 3⟩).Allocated) := by
  have hst : (Vec.se512 ⟨some [0x35], 3⟩).Stores [true, false, true] := by
    refine ⟨rfl, by decide, ?_⟩
    decide
  exact ⟨hst, rank_select_answers_iff _ _ hst (by decide)⟩

/-- A default-constructed `rank_select_se_256` stores the empty sequence; after
    `build_cache` its `rank1(0)` reads through `NULL`. -/
theorem empty_se_256_rank1_fails :
    (Vec.se256 ⟨none, 0⟩).Stores [] ∧
    (∃ f, (Vec.se256 ⟨none, 0⟩).build ⟨fun _ => 0, fun _ => 0, fun _ => 0⟩ true true = some f ∧
      f.rank1 0 = none) ∧
    ¬ Answers (.se256 ⟨none, 0⟩) [] ⟨fun _ => 0, fun _ => 0, fun _ => 0⟩ true true :=
  ⟨⟨rfl, rfl⟩, ⟨_, rfl, rfl⟩,
    not_answers_of_null (v := .se256 ⟨none, 0⟩) Bool.false_ne_true _ _ _ _⟩

end RankSelect
