import Mathlib.Order.Lattice.Nat
import ToplingArk.NestLoudsTrieProofs
import ToplingArk.PatriciaTreeProofs

/-! # Dictionary ranks and back

    `dict_rank_to_state` keeps one interval for every layer.  The nodes between two nodes `a`
    and `b` in depth-first order are, on every layer, those between the cuts of `a` and of
    `b`; the interval ends exactly at the cut of `b`, but begins at the cut of `a` or one
    before it.  Every probe replaces `a` or `b`, and the answer stays between them.

    When no interval has more than one state left, the root is probed: its interval is never
    empty and is the first.  The others are then the path to the answer. -/

namespace NestLouds

open BitCount LevelTree RankSelectLine List Option Finset Nat

section Search

variable {t : Skeleton} {T : LTree} {bound : Nat → Nat} {accept : Nat → Option Bool} {m : Nat}

/-- The search for the node `x` of level `l`: what is left is after the node `a` of level `k`
    and before the bounds. -/
structure Searching (T : LTree) (refs : List LayerRef) (l x k a : Nat) (bound : Nat → Nat) :
    Prop where
  len : refs.length = T.height
  target : T.At l x
  low : T.At k a
  fin : ∀ (i : Nat) r, refs[i]? = some r → r.fin = bound i
  beg : ∀ (i : Nat) r, refs[i]? = some r → r.beg ≤ T.cut k a i ∧ T.cut k a i ≤ r.beg + 1
  tight : ∀ (i : Nat) r, refs[i]? = some r → r.beg = T.cut k a i → r.beg = T.level i ∨ i = k
  here : ∀ r, refs[k]? = some r → r.beg = a
  after : T.cut k a l ≤ x
  before : x < bound l
  closed : ∀ j p, T.At j p → p < bound j → ∀ i, T.cut j p i ≤ bound i
  within : ∀ i, bound i ≤ T.level (i + 1)
  one : bound 0 = 1

/-- What is left between the two ends. -/
def room (T : LTree) (k a : Nat) (bound : Nat → Nat) : Nat :=
  ∑ i ∈ range T.height, (bound i - T.cut k a i)

namespace Searching

variable {refs : List LayerRef} {l x k a : Nat} {bound : Nat → Nat} {r : LayerRef}

variable {i : Nat}

variable (S : Searching T refs l x k a bound)

include S

/-- Every layer has its range. -/
theorem get (hi : i < T.height) : ∃ r, refs[i]? = some r :=
  ⟨_, getElem?_eq_getElem (by rw [S.len]; exact hi)⟩

theorem cut_le_bound (i : Nat) : T.cut k a i ≤ bound i :=
  (le_cut S.target S.low S.after i).trans (S.closed l x S.target S.before i)

/-- The ranges are not turned around. -/
theorem beg_le_fin (hr : refs[i]? = some r) : r.beg ≤ r.fin := by
  rw [S.fin i r hr]
  exact (S.beg i r hr).1.trans (S.cut_le_bound i)

/-- The ranges lie in the tree. -/
theorem fin_le_size (hr : refs[i]? = some r) : r.fin ≤ T.size := by
  rw [S.fin i r hr]
  exact (S.within i).trans (level_le_size _)

/-- The ancestors of the wanted state. -/
theorem ancestor (hi : i ≤ l) : T.At i (T.up x (l - i)) := by
  refine LTree.At.up ?_
  rw [Nat.add_sub_cancel' hi]
  exact S.target

/-- A marked state above the answer has a smaller rank. -/
theorem rank_lt (f : Nat → Bool) (hi : i < l) (hbit : f (T.up x (l - i)) = true) :
    T.dfsRank f i (T.up x (l - i)) < T.dfsRank f l x :=
  dfsRank_lt f (S.ancestor hi.le) S.target (by rw [cut_above x hi]; exact lt_succ_self _) hbit

/-- **THE PATH TO THE ANSWER** never leaves the intervals. -/
theorem path (hi : i ≤ l) :
    ∃ r, refs[i]? = some r ∧ r.beg ≤ T.up x (l - i) ∧ T.up x (l - i) < r.fin := by
  have hx := S.target
  obtain ⟨r, hr⟩ := S.get (hi.trans_lt hx.lt_height)
  refine ⟨r, hr, ?_⟩
  rw [S.fin i r hr]
  rcases eq_or_lt_of_le hi with rfl | hlt
  · rw [Nat.sub_self]
    exact ⟨(S.beg i r hr).1.trans S.after, S.before⟩
  have hcut : T.cut l x i = T.up x (l - i) + 1 := cut_above x hlt
  have hbound := S.closed l x hx S.before i
  have hle := le_cut hx S.low S.after i
  have hbeg := (S.beg i r hr).1
  -- an interval that begins behind the ancestor would begin at its cut
  by_contra hgt
  have hexact : r.beg = T.cut k a i := by omega
  rcases S.tight i r hr hexact with hlevel | rfl
  · have := (S.ancestor hi).1
    omega
  · have hself := S.here r hr
    have hafter := S.after
    rw [cut_below a hlt.le] at hafter
    have hx' : T.At (i + (l - i)) x := by rwa [Nat.add_sub_cancel' hi]
    have := (hx'.le_up_iff a).mpr hafter
    omega

/-- The interval of the root is never empty. -/
theorem root : ∃ r, refs[0]? = some r ∧ r.beg = 0 ∧ r.fin = 1 := by
  obtain ⟨r, hr, hbeg, -⟩ := S.path (zero_le l)
  have hup : T.At 0 (T.up x l) := LTree.At.up (by rw [zero_add]; exact S.target)
  rw [Nat.sub_zero, hup.eq_zero] at hbeg
  exact ⟨r, hr, le_zero.mp hbeg, by rw [S.fin 0 r hr, S.one]⟩

/-- The intervals keep their begins. -/
theorem mapIdx {f : Nat → LayerRef → LayerRef} {bound' : Nat → Nat}
    (hf : ∀ (i : Nat) r, refs[i]? = some r → (f i r).beg = r.beg ∧ (f i r).fin = bound' i)
    (hx : x < bound' l) (hclosed : ∀ j p, T.At j p → p < bound' j → ∀ i, T.cut j p i ≤ bound' i)
    (hwithin : ∀ i, bound' i ≤ T.level (i + 1)) (hone : bound' 0 = 1) :
    Searching T (refs.mapIdx f) l x k a bound' := by
  have hget : ∀ (i : Nat) r, (refs.mapIdx f)[i]? = some r →
      ∃ r0, refs[i]? = some r0 ∧ r.beg = r0.beg ∧ r.fin = bound' i := by
    intro i r hr
    rw [getElem?_mapIdx, map_eq_some_iff] at hr
    obtain ⟨r0, hr0, rfl⟩ := hr
    exact ⟨r0, hr0, hf i r0 hr0⟩
  refine ⟨length_mapIdx.trans S.len, S.target, S.low, fun i r hr => ?_, fun i r hr => ?_,
    fun i r hr => ?_, fun r hr => ?_, S.after, hx, hclosed, hwithin, hone⟩
  · obtain ⟨-, -, -, hfin⟩ := hget i r hr
    exact hfin
  · obtain ⟨r0, hr0, hbeg, -⟩ := hget i r hr
    rw [hbeg]
    exact S.beg i r0 hr0
  · obtain ⟨r0, hr0, hbeg, -⟩ := hget i r hr
    rw [hbeg]
    exact S.tight i r0 hr0
  · obtain ⟨r0, hr0, hbeg, -⟩ := hget k r hr
    rw [hbeg]
    exact S.here r0 hr0

/-- Other middles change nothing. -/
theorem withMids (g : Nat → Nat → Nat) : Searching T (withMids g refs) l x k a bound :=
  S.mapIdx (fun i r hr => ⟨rfl, S.fin i r hr⟩) S.before S.closed S.within S.one

end Searching

/-! ## One probe -/

section Probe

variable {refs : List LayerRef} {l x k a : Nat} {bound : Nat → Nat} {j p : Nat}

/-- The marks that a probe leaves. -/
def Marked (T : LTree) (refs : List LayerRef) (j p : Nat) : Prop :=
  ∀ (i : Nat) r, refs[i]? = some r → r.mid = mark T j p i

/-- **THE ANSWER IS BEFORE THE PROBE**: the cut of the probe is the new bound. -/
theorem Searching.cutRight (h : t.Codes T) (S : Searching T refs l x k a bound) (hp : T.At j p)
    (hmark : Marked T refs j p) (hx : x < T.cut j p l) (hlow : T.cut k a j ≤ p)
    (hhigh : p < bound j) :
    Searching T (t.cutRight refs j) l x k a (T.cut j p) ∧
      room T k a (T.cut j p) < room T k a bound := by
  refine ⟨S.mapIdx (fun i r hr => ⟨rfl, ?_⟩) hx (fun q y hy => cut_le hy hp) (cut_le_level hp) ?_,
    ?_⟩
  · have hcut := cut_le_level hp i
    have hsize := level_le_size (T := T) (i + 1)
    rw [hmark i r hr, ← cut_eq_mark, h.index_eq (by omega)]
  · -- nothing is before the root
    cases j with
    | zero =>
      rw [hp.eq_zero] at hx
      exact absurd S.target.1 hx.not_ge
    | succ j =>
      have hup : T.At 0 (T.up p (j + 1)) := LTree.At.up (by rwa [zero_add])
      rw [cut_above p (succ_pos j), Nat.sub_zero, hup.eq_zero]
  · refine sum_lt_sum (fun i _ => Nat.sub_le_sub_right (S.closed j p hp hhigh i) _)
      ⟨j, Finset.mem_range.mpr hp.lt_height, ?_⟩
    rw [cut_self]
    omega

/-- **THE ANSWER IS NOT BEFORE THE PROBE**: the probe is the new lower end. -/
theorem Searching.cutLeft (S : Searching T refs l x k a bound) (hp : T.At j p)
    (hmark : Marked T refs j p) (hx : T.cut j p l ≤ x) (hlow : T.cut k a j ≤ p)
    (hhigh : p < bound j) :
    Searching T (t.cutLeft refs j) l x j p bound ∧ room T j p bound ≤ room T k a bound ∧
      (j ≠ k ∨ p ≠ a → room T j p bound < room T k a bound) := by
  have hget : ∀ (i : Nat) r, (t.cutLeft refs j)[i]? = some r →
      ∃ r0, refs[i]? = some r0 ∧ r.fin = r0.fin ∧
        (if i = j then r.beg = T.cut j p i else r.beg + 1 = T.cut j p i) := by
    intro i r hr
    unfold Skeleton.cutLeft at hr
    rw [getElem?_mapIdx, map_eq_some_iff] at hr
    obtain ⟨r0, hr0, rfl⟩ := hr
    refine ⟨r0, hr0, rfl, ?_⟩
    have hcut := cut_eq_mark (T := T) j p i
    dsimp only
    rw [hmark i r0 hr0]
    -- above the marked node its ancestor stays in the range, below the cut itself begins it
    rcases lt_trichotomy i j with hlt | rfl | hgt
    · rw [if_neg hlt.ne, if_neg (by omega), t.indexSub_eq (zero_le _)]
      rw [if_pos hlt] at hcut
      omega
    · rw [if_pos rfl, if_neg (lt_irrefl i), t.indexSub_eq (zero_le _)]
      rw [if_neg (lt_irrefl i)] at hcut
      omega
    · rw [if_neg (by omega)] at hcut
      have hlevel := level_le_cut hp i
      have hpos := level_mono (T := T) (show 1 ≤ i by omega)
      rw [level_one] at hpos
      rw [if_neg (by omega), if_pos hgt, t.indexSub_eq (by omega)]
      omega
  have hbegs : ∀ (i : Nat) r, (t.cutLeft refs j)[i]? = some r →
      r.beg ≤ T.cut j p i ∧ T.cut j p i ≤ r.beg + 1 ∧ (r.beg = T.cut j p i → i = j) := by
    intro i r hr
    obtain ⟨-, -, -, hbeg⟩ := hget i r hr
    split at hbeg
    · rename_i heq
      exact ⟨hbeg.le, by omega, fun _ => heq⟩
    · exact ⟨by omega, hbeg.ge, fun heq => by omega⟩
  have hmono : ∀ i, T.cut k a i ≤ T.cut j p i := le_cut hp S.low hlow
  refine ⟨⟨?_, S.target, hp, ?_, ?_, ?_, ?_, hx, S.before, S.closed, S.within, S.one⟩, ?_, ?_⟩
  · unfold Skeleton.cutLeft
    rw [length_mapIdx]
    exact S.len
  · intro i r hr
    obtain ⟨r0, hr0, hfin, -⟩ := hget i r hr
    rw [hfin]
    exact S.fin i r0 hr0
  · intro i r hr
    obtain ⟨h1, h2, -⟩ := hbegs i r hr
    exact ⟨h1, h2⟩
  · intro i r hr heq
    exact .inr ((hbegs i r hr).2.2 heq)
  · intro r hr
    obtain ⟨-, -, -, hbeg⟩ := hget j r hr
    rw [if_pos rfl, cut_self] at hbeg
    exact hbeg
  · exact Finset.sum_le_sum (fun i _ => Nat.sub_le_sub_left (hmono i) _)
  -- some room is lost at the old node, which is cut off
  intro hne
  refine sum_lt_sum (fun i _ => Nat.sub_le_sub_left (hmono i) _)
    ⟨k, Finset.mem_range.mpr S.low.lt_height, ?_⟩
  have hbound := S.closed j p hp hhigh k
  have hlt : a < T.cut j p k := by
    rcases cut_total hp S.low hlow.not_gt with ⟨heq, heq'⟩ | hlt
    · rcases hne with hne | hne
      · exact absurd heq hne
      · exact absurd heq' hne
    · exact hlt
  rw [cut_self]
  omega

/-- The loops of a probe, after the middle of its own layer has been set. -/
theorem probe_spec (h : t.Codes T) (hlen : refs.length = T.height) (hp : T.At j p) :
    ∃ g, t.rankLoops (table T t.termBit) p j (t.setMid refs j p) =
        some (withMids g refs, T.dfsRank t.termBit j p) ∧ Marked T (withMids g refs) j p := by
  refine ⟨_, by rw [rankLoops_spec h hp, setMid_eq h _ _ hp.lt_size.le, withMids_withMids], ?_⟩
  intro i r hr
  unfold withMids at hr
  rw [getElem?_mapIdx, map_eq_some_iff] at hr
  obtain ⟨r0, hr0, rfl⟩ := hr
  have hi : i < T.height := by
    have := (List.getElem_of_getElem? hr0).1
    rwa [hlen] at this
  dsimp only
  by_cases hij : i = j
  · subst hij
    rw [if_neg (fun hh => hh.1 rfl), if_pos rfl]
    unfold mark
    rw [if_neg (lt_irrefl i), Nat.sub_self, down_zero]
  · rw [if_pos ⟨hij, hi⟩]

end Probe

/-! ## The scans -/

/-- The intervals have no more than one state left. -/
def Narrow (refs : List LayerRef) : Prop := ∀ (i : Nat) r, refs[i]? = some r → r.fin ≤ r.beg + 1

variable {refs : List LayerRef} {a k l x : Nat}

/-- New middles keep the ranges narrow. -/
theorem Narrow.withMids (hnarrow : Narrow refs) (g : Nat → Nat → Nat) :
    Narrow (withMids g refs) := by
  intro i r hr
  unfold NestLouds.withMids at hr
  rw [getElem?_mapIdx, map_eq_some_iff] at hr
  obtain ⟨r0, hr0, rfl⟩ := hr
  exact hnarrow i r0 hr0

/-- **THE SCANS FIND THE ANSWER**: the intervals down to its layer are the path to it. -/
theorem scan_spec (S : Searching T refs l x k a bound) (hnarrow : Narrow refs) (hm : m ≤ l)
    (habove : ∀ i, m ≤ i → i < l → accept (T.up x (l - i)) = some false)
    (hself : accept x = some true) : Skeleton.scan accept (refs.drop m) = some x := by
  induction hd : l - m generalizing m with
  | zero =>
    obtain ⟨r, hr, h1, h2⟩ := S.path hm
    have hml : l - m = 0 := hd
    rw [hml, up_zero] at h1 h2
    have hfin := hnarrow m r hr
    have hbeg : r.beg = x := by omega
    obtain ⟨hlt, rfl⟩ := List.getElem_of_getElem? hr
    rw [drop_eq_getElem_cons hlt, Skeleton.scan, if_neg (by omega), hbeg, hself]
    rfl
  | succ d ih =>
    obtain ⟨r, hr, h1, h2⟩ := S.path hm
    have hfin := hnarrow m r hr
    have hbeg : r.beg = T.up x (l - m) := by omega
    obtain ⟨hlt, rfl⟩ := List.getElem_of_getElem? hr
    rw [drop_eq_getElem_cons hlt, Skeleton.scan, if_neg (by omega), hbeg,
      habove m le_rfl (by omega)]
    exact ih (by omega) (fun i h1 h2 => habove i (by omega) h2) (by omega)

/-- With one state left in a layer, the wanted one is found by its terminal bit. -/
theorem scanTerm_spec (h : t.Codes T) (S : Searching T refs l x k a bound) (hnarrow : Narrow refs)
    (hm : m ≤ l) (hterm : t.termBit x = true) (hfirst : T.dfsRank t.termBit l x = 0) :
    t.scanTerm (refs.drop m) = some x := by
  refine scan_spec S hnarrow hm (fun i h1 h2 => ?_) ?_
  · rw [h.isTerm (S.ancestor h2.le).lt_size]
    cases hbit : t.termBit (T.up x (l - i)) with
    | false => rfl
    | true =>
      have hlt := S.rank_lt t.termBit h2 hbit
      omega
  · rw [h.isTerm S.target.lt_size, hterm]

/-- With one state left in a layer, the wanted one is found by its rank. -/
theorem scanRank_spec (h : t.Codes T) (S : Searching T refs l x k a bound) (hnarrow : Narrow refs)
    (hterm : t.termBit x = true) :
    t.scanRank (layersOf t T) (T.dfsRank t.termBit l x) refs = some x := by
  have hrank : ∀ {i y}, T.At i y → t.hasRank (layersOf t T) (T.dfsRank t.termBit l x) y =
      some (t.termBit y && decide (T.dfsRank t.termBit i y = T.dfsRank t.termBit l x)) := by
    intro i y hy
    unfold Skeleton.hasRank
    rw [h.isTerm hy.lt_size, stateToDictRank_spec h hy]
    cases t.termBit y <;> rfl
  have hself : t.hasRank (layersOf t T) (T.dfsRank t.termBit l x) x = some true := by
    rw [hrank S.target, hterm, decide_eq_true rfl]
    rfl
  have habove : ∀ i, 0 ≤ i → i < l →
      t.hasRank (layersOf t T) (T.dfsRank t.termBit l x) (T.up x (l - i)) = some false := by
    intro i _ h2
    rw [hrank (S.ancestor h2.le)]
    cases hbit : t.termBit (T.up x (l - i)) with
    | false => rfl
    | true =>
      rw [decide_eq_false (S.rank_lt t.termBit h2 hbit).ne]
      rfl
  exact scan_spec S hnarrow (zero_le l) habove hself

/-! ## The loop -/

/-- The layer that is probed next: the root if nothing wider is left. -/
structure Probing (refs : List LayerRef) (j size : Nat) : Prop where
  narrow : size = 1 → j = 0 ∧ Narrow refs
  wide : size ≠ 1 → ∃ r, refs[j]? = some r ∧ r.beg + 2 ≤ r.fin

/-- The widest range is one to probe. -/
theorem probing_widest (S : Searching T refs l x k a bound) :
    Probing refs (t.widest refs).1 (t.widest refs).2 := by
  have hwidest := widest_spec (t := t) refs
  have hsize : ∀ {i : Nat} {r}, refs[i]? = some r → t.indexSub r.fin r.beg = r.fin - r.beg :=
    fun hr => t.indexSub_eq (S.beg_le_fin hr)
  obtain ⟨r0, hr0, hbeg0, hfin0⟩ := S.root
  have hroot := hwidest.le 0 r0 hr0
  rw [hsize hr0] at hroot
  refine ⟨fun hone => ⟨?_, fun i r hr => ?_⟩, fun hne => ?_⟩
  · by_contra hpos
    have hlt := hwidest.lt 0 r0 (pos_of_ne_zero hpos) hr0
    rw [hsize hr0] at hlt
    omega
  · have hle := hwidest.le i r hr
    rw [hsize hr] at hle
    omega
  · obtain ⟨r, hr, hw⟩ := hwidest.there (by omega)
    rw [hsize hr] at hw
    exact ⟨r, hr, by omega⟩

/-- **THE SEARCH FINDS THE TERMINAL STATE WITH THE RANK.** -/
theorem dictLoop_spec (h : t.Codes T) {fuel : Nat} {j size : Nat}
    (S : Searching T refs l x k a bound) (hterm : t.termBit x = true) (hprobe : Probing refs j size)
    (hfuel : room T k a bound < fuel) :
    t.dictLoop (layersOf t T) (T.dfsRank t.termBit l x) fuel refs j size = some x := by
  induction fuel generalizing refs j size k a bound with
  | zero => cases hfuel
  | succ fuel ih =>
    rw [Skeleton.dictLoop]
    by_cases hone : size = 1
    · -- every interval has one state at most, and the root is probed
      obtain ⟨rfl, hnarrow⟩ := hprobe.narrow hone
      obtain ⟨r, hr, hbeg, hfin⟩ := S.root
      have hstate : t.index (r.beg + r.fin) / 2 = 0 := by
        rw [hbeg, hfin, h.index_eq (by omega)]
      obtain ⟨g, hloops, -⟩ := probe_spec h S.len (at_zero (T := T))
      rw [hr]
      simp only [bind_eq_bind, bind_some, hstate]
      show (t.rankLoops (table T t.termBit) 0 0 (t.setMid refs 0 0)).bind _ = _
      rw [hloops, dfsRank_root]
      simp only [bind_some]
      rw [h.isTerm size_pos]
      simp only [bind_some]
      by_cases hhit : 0 = T.dfsRank t.termBit l x ∧ t.termBit 0 = true
      · rw [if_pos hhit]
        refine congrArg some (eq_of_dfsRank_eq t.termBit at_zero S.target hhit.2 hterm ?_)
        rw [dfsRank_root]
        exact hhit.1
      rw [if_neg hhit, if_pos hone]
      by_cases hzero : 0 = T.dfsRank t.termBit l x
      · have hl : 1 ≤ l := by
          by_contra hl
          have hl0 : l = 0 := by omega
          subst hl0
          rw [S.target.eq_zero] at hterm
          exact hhit ⟨hzero, hterm⟩
        rw [if_pos hzero]
        exact scanTerm_spec h (S.withMids g) (hnarrow.withMids g) hl hterm hzero.symm
      · rw [if_neg hzero]
        exact scanRank_spec h (S.withMids g) (hnarrow.withMids g) hterm
    -- the middle of an interval of two states or more is between the two ends
    obtain ⟨r, hr, hwide⟩ := hprobe.wide hone
    have hsize := S.fin_le_size hr
    have hstate : t.index (r.beg + r.fin) / 2 = (r.beg + r.fin) / 2 := by
      rw [h.index_eq (by omega)]
    have hbeg := (S.beg j r hr).2
    have hfin := S.fin j r hr
    have hlow : T.cut k a j ≤ (r.beg + r.fin) / 2 := by omega
    have hhigh : (r.beg + r.fin) / 2 < bound j := by omega
    have hp : T.At j ((r.beg + r.fin) / 2) :=
      ⟨(level_le_cut S.low j).trans hlow, hhigh.trans_le (S.within j)⟩
    have hne : j ≠ k ∨ (r.beg + r.fin) / 2 ≠ a := by
      by_cases hjk : j = k
      · subst hjk
        have := S.here r hr
        exact .inr (by omega)
      · exact .inl hjk
    obtain ⟨g, hloops, hmarked⟩ := probe_spec h S.len hp
    rw [hr]
    simp only [bind_eq_bind, bind_some, hstate]
    show (t.rankLoops (table T t.termBit) _ j (t.setMid refs j _)).bind _ = _
    rw [hloops]
    simp only [bind_some]
    rw [h.isTerm hp.lt_size]
    simp only [bind_some]
    by_cases hhit : T.dfsRank t.termBit j ((r.beg + r.fin) / 2) = T.dfsRank t.termBit l x ∧
        t.termBit ((r.beg + r.fin) / 2) = true
    · rw [if_pos hhit]
      exact congrArg some (eq_of_dfsRank_eq t.termBit hp S.target hhit.2 hterm hhit.1)
    rw [if_neg hhit, if_neg hone]
    by_cases hless : T.dfsRank t.termBit l x < T.dfsRank t.termBit j ((r.beg + r.fin) / 2)
    · -- the answer is before the probe
      have hx : x < T.cut j ((r.beg + r.fin) / 2) l := by
        by_contra hge
        have hle := dfsRank_le t.termBit (le_cut S.target hp (not_lt.mp hge))
        omega
      obtain ⟨S', hroom⟩ := (S.withMids g).cutRight h hp hmarked hx hlow hhigh
      rw [if_pos hless]
      exact ih S' (probing_widest S') (by omega)
    -- the answer is not before the probe
    have hx : T.cut j ((r.beg + r.fin) / 2) l ≤ x := by
      by_contra hlt
      have := dfsRank_lt t.termBit S.target hp (not_le.mp hlt) hterm
      exact hless this
    obtain ⟨S', -, hroom⟩ := (S.withMids g).cutLeft (t := t) hp hmarked hx hlow hhigh
    have hlt := hroom hne
    rw [if_neg hless]
    exact ih S' (probing_widest S') (by omega)

/-- The search begins with the whole layers. -/
theorem searching_whole (hx : T.At l x) :
    Searching T (wholeLayers T) l x 0 0 (fun i => T.level (i + 1)) := by
  have hget : ∀ (i : Nat) r, (wholeLayers T)[i]? = some r →
      r.beg = T.level i ∧ r.fin = T.level (i + 1) := by
    intro i r hr
    have hi : i < T.height := by
      have := (List.getElem_of_getElem? hr).1
      simpa [wholeLayers] using this
    rw [wholeLayers_get hi] at hr
    obtain rfl := some.inj hr
    exact ⟨rfl, rfl⟩
  refine ⟨by simp [wholeLayers], hx, at_zero, fun i r hr => (hget i r hr).2, fun i r hr => ?_,
    fun i r hr _ => .inl (hget i r hr).1, fun r hr => (hget 0 r hr).1, ?_, hx.2,
    fun j p hp _ => cut_le_level hp, fun _ => le_rfl, rfl⟩
  · rw [(hget i r hr).1]
    exact ⟨le_rfl, le_succ _⟩
  · exact hx.1

/-- All states are left at the start. -/
theorem room_whole : room T 0 0 (fun i => T.level (i + 1)) = T.size := by
  have hsum : ∀ n, ∑ i ∈ range n, (T.level (i + 1) - T.cut 0 0 i) = T.level n := by
    intro n
    induction n with
    | zero => rfl
    | succ n ih =>
      have hle := level_le_succ (T := T) n
      rw [Finset.sum_range_succ, cut_root]
      omega
  unfold room
  rw [hsum, level_height]

/-- The number of states of the widest layer. -/
def widestLayer (T : LTree) : Nat :=
  (Finset.range T.height).sup (fun k => T.level (k + 1) - T.level k)

theorem width_le_widestLayer (hk : k < T.height) : T.level (k + 1) - T.level k ≤ widestLayer T :=
  le_sup (f := fun k => T.level (k + 1) - T.level k) (Finset.mem_range.mpr hk)

/-- The first probe is in the widest layer. -/
theorem widest_whole (t : Skeleton) (T : LTree) :
    (t.widest (wholeLayers T)).1 < T.height ∧ (t.widest (wholeLayers T)).2 = widestLayer T ∧
      T.level ((t.widest (wholeLayers T)).1 + 1) - T.level (t.widest (wholeLayers T)).1 =
        widestLayer T := by
  have hwidest := widest_spec (t := t) (wholeLayers T)
  have hsize : ∀ k, t.indexSub (T.level (k + 1)) (T.level k) = T.level (k + 1) - T.level k :=
    fun k => t.indexSub_eq (level_le_succ k)
  have hle : widestLayer T ≤ (t.widest (wholeLayers T)).2 := by
    refine Finset.sup_le (fun k hk => ?_)
    rw [← hsize]
    exact hwidest.le k _ (wholeLayers_get (Finset.mem_range.mp hk))
  have hroot := width_le_widestLayer (T := T) height_pos
  rw [level_one, level_zero] at hroot
  obtain ⟨r, hr, hr2⟩ := hwidest.there (by omega)
  have hlt : (t.widest (wholeLayers T)).1 < T.height := by
    have := (List.getElem_of_getElem? hr).1
    simpa [wholeLayers] using this
  rw [wholeLayers_get hlt] at hr
  obtain rfl := some.inj hr
  rw [hsize] at hr2
  have hge := width_le_widestLayer (T := T) hlt
  exact ⟨hlt, by omega, by omega⟩

/-- **`dict_rank_to_state` INVERTS THE RANK**, if the width of the widest layer survives its
    32-bit field. -/
theorem dictRankToState_spec (h : t.Codes T) (hroom : T.height ≤ t.room)
    (hwidth : widestLayer T % 2 ^ 32 = 1 → widestLayer T = 1) (hx : T.At l x)
    (hterm : t.termBit x = true) :
    t.dictRankToState (layersOf t T) (T.dfsRank t.termBit l x) = some x := by
  have S := searching_whole hx
  obtain ⟨hlt, hsize, -⟩ := widest_whole t T
  have hprobe := probing_widest (t := t) S
  have hid : (t.widest (wholeLayers T)).1 % 2 ^ 32 = (t.widest (wholeLayers T)).1 :=
    mod_eq_of_lt (by have := t.roomWidth; omega)
  refine dictLoop_spec h S hterm ⟨fun hone => ?_, fun hne => ?_⟩ ?_
  · have hone' : (t.widest (wholeLayers T)).2 % 2 ^ 32 = 1 := hone
    rw [hsize] at hone'
    show (t.widest (wholeLayers T)).1 % 2 ^ 32 = 0 ∧ _
    rw [hid]
    exact hprobe.narrow (by rw [hsize, hwidth hone'])
  · show ∃ r, _[(t.widest _).1 % 2 ^ 32]? = some r ∧ _
    rw [hid]
    refine hprobe.wide (fun hone => hne ?_)
    show (t.widest (wholeLayers T)).2 % 2 ^ 32 = 1
    rw [hone]
    rfl
  · rw [room_whole, h.louds, Louds.length_bits]
    omega

/-! ## Too wide a layer -/

/-- A scan ends at the begin of some range, or nowhere. -/
theorem scan_mem (h : Skeleton.scan accept refs = some x) :
    x = nilState ∨ ∃ r ∈ refs, x = r.beg := by
  induction refs with
  | nil => exact .inl (some.inj h).symm
  | cons r refs ih =>
    have hrest : Skeleton.scan accept refs = some x →
      x = nilState ∨ ∃ r' ∈ r :: refs, x = r'.beg := by
      intro hr
      rcases ih hr with hnil | ⟨r', hr', hx⟩
      · exact .inl hnil
      · exact .inr ⟨r', mem_cons_of_mem _ hr', hx⟩
    rw [Skeleton.scan] at h
    split at h
    · exact hrest h
    cases ha : accept r.beg with
    | none =>
      rw [ha] at h
      cases h
    | some found =>
      rw [ha] at h
      cases found with
      | true => exact .inr ⟨r, mem_cons_self, (some.inj h).symm⟩
      | false => exact hrest h

/-- The state that is probed first. -/
def firstProbe (t : Skeleton) (T : LTree) : Nat :=
  (T.level (t.widest (wholeLayers T)).1 + T.level ((t.widest (wholeLayers T)).1 + 1)) / 2

/-- The first probe is a state of its layer. -/
theorem firstProbe_at (t : Skeleton) (T : LTree) :
    T.At (t.widest (wholeLayers T)).1 (firstProbe t T) := by
  obtain ⟨hlt, -, -⟩ := widest_whole t T
  have := level_lt_succ (level_lt_size hlt)
  unfold firstProbe
  constructor <;> omega

/-- **A WIDTH THAT BECOMES ONE** in its 32-bit field ends the search after the first probe: what
    is found is the probe or the first state of a layer. -/
theorem dictRankToState_wide (h : t.Codes T) (hroom : T.height ≤ t.room)
    (hwide : widestLayer T % 2 ^ 32 = 1) {index : Nat}
    (hx : t.dictRankToState (layersOf t T) index = some x) :
    x = firstProbe t T ∨ x = nilState ∨ ∃ k, x = T.level k := by
  obtain ⟨hlt, hsize, -⟩ := widest_whole t T
  have hp := firstProbe_at t T
  have hid : (t.widest (wholeLayers T)).1 % 2 ^ 32 = (t.widest (wholeLayers T)).1 :=
    mod_eq_of_lt (by have := t.roomWidth; omega)
  have hone : (t.widest (wholeLayers T)).2 % 2 ^ 32 = 1 := by rw [hsize, hwide]
  have hle := level_le_succ (T := T) (t.widest (wholeLayers T)).1
  have hmax := level_le_size (T := T) ((t.widest (wholeLayers T)).1 + 1)
  have hstate : t.index (T.level (t.widest (wholeLayers T)).1 +
      T.level ((t.widest (wholeLayers T)).1 + 1)) / 2 = firstProbe t T := by
    rw [h.index_eq (by omega)]
    rfl
  have hfuel : ∃ fuel, t.louds.bits.length = fuel + 1 := by
    rw [h.louds]
    exact ⟨_, rfl⟩
  obtain ⟨fuel, hfuel⟩ := hfuel
  have hlen : (wholeLayers T).length = T.height := by simp [wholeLayers]
  obtain ⟨g, hloops, -⟩ := probe_spec h hlen hp
  -- the intervals are still whole layers
  have hbegs : ∀ r ∈ withMids g (wholeLayers T), ∃ k, r.beg = T.level k := by
    intro r hr
    obtain ⟨i, hi⟩ := mem_iff_getElem?.mp hr
    unfold withMids wholeLayers at hi
    rw [getElem?_mapIdx, getElem?_map, Option.map_map, map_eq_some_iff] at hi
    obtain ⟨k, -, rfl⟩ := hi
    exact ⟨k, rfl⟩
  have hscan : ∀ {accept : Nat → Option Bool} {refs : List LayerRef},
      (∀ r ∈ refs, r ∈ withMids g (wholeLayers T)) → Skeleton.scan accept refs = some x →
      x = firstProbe t T ∨ x = nilState ∨ ∃ k, x = T.level k := by
    intro accept refs hsub hres
    rcases scan_mem hres with hnil | ⟨r, hr, rfl⟩
    · exact .inr (.inl hnil)
    · exact .inr (.inr (hbegs r (hsub r hr)))
  unfold Skeleton.dictRankToState at hx
  rw [hfuel, Skeleton.dictLoop] at hx
  unfold layersOf at hx
  rw [hid, wholeLayers_get hlt] at hx
  simp only [bind_eq_bind, bind_some, hstate] at hx
  rw [hloops] at hx
  rw [h.isTerm hp.lt_size] at hx
  simp only [bind_some] at hx
  split at hx
  · exact .inl (some.inj hx).symm
  · split at hx
    · exact hscan (fun r hr => mem_of_mem_drop hr) hx
    · exact hscan (fun r hr => hr) hx

/-- **THEN SOME TERMINAL STATE IS NOT FOUND**: the trie would have to be larger than its type
    allows if all leaves were the probe or the first states of their layers. -/
theorem exists_lost_state (h : t.Codes T)
    (hwide : widestLayer T % 2 ^ 32 = 1) (hne : widestLayer T ≠ 1) :
    ∃ l s, T.At l s ∧ T.first (s + 1) = T.first s ∧ s ≠ firstProbe t T ∧ ∀ k, s ≠ T.level k := by
  obtain ⟨hlt, -, hwidth⟩ := widest_whole t T
  have hfits : 2 * T.size + 1 < 2 ^ 64 := by
    refine h.fits.trans_le (Nat.pow_le_pow_right (by omega) ?_)
    rcases t.indexWidth with hw | hw <;> omega
  by_contra hall
  have hstairs := staircase (n := 2 ^ 32) (firstProbe_at t T) (by omega)
    (fun k s hs hfirst hprobe => by
    by_contra hleaf
    have hmono := first_mono (T := T) (le_add_right s 1)
    refine hall ⟨k, s, hs, by omega, hprobe, fun i hi => hfirst ?_⟩
    have hi' : T.At i s := by
      rw [hi]
      exact at_level (hi ▸ hs.lt_size)
    rw [hi, hi'.unique hs])
  omega

end Search

/-! ## Ranks of the strings -/

open Patricia

/-- The trie has the shape and the terminal states of the tree. -/
structure Skeleton.Represents (t : Skeleton) (P : PTree) : Prop extends t.Codes P.toLTree where
  terms : ∀ s, s < P.size → t.isTerm.bits[s]? = some (P.term s)

section Represents

variable {t : Skeleton} {P : PTree}

variable {s : Nat}

theorem Skeleton.Represents.termBit (h : t.Represents P) (hs : s < P.size) :
    t.termBit s = P.term s := ofList_eq (h.terms s hs)

theorem Skeleton.Represents.ones_eq (h : t.Represents P) {x : Nat} (hx : x ≤ P.size) :
    ones t.termBit x = ones P.term x := ones_congr (fun _ hy => h.termBit (hy.trans_le hx))

theorem Skeleton.Represents.dfsRank_eq (h : t.Represents P) (hs : P.At l s) :
    P.dfsRank t.termBit l s = P.dfsRank P.term l s :=
  dfsRank_congr _ (fun _ hx => h.termBit hx) hs

/-- The layers that `init_for_term` leaves. -/
theorem Skeleton.Represents.init (h : t.Represents P) {layers : Layers}
    (hinit : t.initForTerm = some layers) :
    layers = layersOf t P.toLTree ∧ P.height ≤ t.room := by
  rw [initForTerm_spec h.toCodes] at hinit
  split at hinit
  · rename_i hroom
    exact ⟨(some.inj hinit).symm, hroom⟩
  · cases hinit

/-- The rank of a state is the number of strings before it. -/
theorem Skeleton.Represents.rank (h : t.Represents P) (hs : s < P.size) :
    t.stateToDictRank (layersOf t P.toLTree) s = some (P.before P.term s) := by
  obtain ⟨l, hl⟩ := exists_at hs
  rw [stateToDictRank_spec h.toCodes hl, h.dfsRank_eq hl, before_eq_dfsRank _ hl]

/-- `size_t(-1)` is not a state. -/
theorem Skeleton.Represents.lt_nilState (h : t.Represents P) : P.size < nilState := by
  have hfits : 2 * P.size + 1 < 2 ^ 64 := by
    refine h.fits.trans_le (Nat.pow_le_pow_right (by omega) ?_)
    rcases t.indexWidth with hw | hw <;> omega
  unfold nilState
  omega

end Represents

/-- **DICTIONARY RANKS ARE INVERTIBLE** exactly if the width of the widest layer does not become
    one in the 32-bit `m_max_layer_size`, from which the search takes its first decision. -/
theorem dict_rank_invertible_iff (t : Skeleton) (P : PTree) (hrep : t.Represents P)
    (S : List (List Nat)) (hsorted : S.Pairwise (· < ·)) (hS : ∀ w, w ∈ S ↔ P.accepts w = true)
    (layers : Layers) (hinit : t.initForTerm = some layers) :
    ((∀ s, s < P.size → t.stateToDictRank layers s = some (P.before P.term s)) ∧
      ∀ r w, S[r]? = some w → ∃ x, t.dictRankToState layers r = some x ∧ x < P.size ∧
        P.term x = true ∧ P.word x = w) ↔
      (widestLayer P.toLTree % 2 ^ 32 = 1 → widestLayer P.toLTree = 1) := by
  obtain ⟨rfl, hroom⟩ := hrep.init hinit
  rw [← strings_eq hsorted hS]
  constructor
  · rintro ⟨-, hinv⟩ hwide
    by_contra hne
    -- a terminal state that the cut-off search cannot find
    obtain ⟨l, s, hs, hleaf, hprobe, hfirst⟩ := exists_lost_state hrep.toCodes hwide hne
    have hterm := P.leaves s hs.lt_size hleaf
    obtain ⟨x, hx, hlt, htx, hword⟩ := hinv _ _ (string_of_node hs hterm)
    have heq : x = s := word_injective hlt hs.lt_size htx hterm hword
    subst heq
    rcases dictRankToState_wide hrep.toCodes hroom hwide hx with hcase | hcase | ⟨k, hcase⟩
    · exact hprobe hcase
    · have := hrep.lt_nilState
      omega
    · exact hfirst k hcase
  · intro hwidth
    refine ⟨fun s hs => hrep.rank hs, fun r w hr => ?_⟩
    obtain ⟨l, x, hx, hterm, hword, hrank⟩ := exists_node_of_string hr
    have hbit : t.termBit x = true := by rw [hrep.termBit hx.lt_size, hterm]
    refine ⟨x, ?_, hx.lt_size, hterm, hword⟩
    rw [← hrank, ← hrep.dfsRank_eq hx]
    exact dictRankToState_spec hrep.toCodes hroom hwidth hx hbit

/-- The trie of the tree, with every state terminal. -/
def skeletonOf (T : LTree) (room : Nat) (hroom : room < 2 ^ 32) : Skeleton where
  indexBits := 64
  louds := RsBits.ofBits (Louds.bits T)
  isTerm := RsBits.ofBits (replicate T.size true)
  room := room
  indexWidth := width64
  roomWidth := hroom

/-- A tree whose degrees fit a letter has a skeleton. -/
theorem skeletonOf_represents {T : LTree} (hdeg : ∀ s, T.first (s + 1) ≤ T.first s + 256)
    (hfits : 2 * T.size + 1 < 2 ^ 64) {room : Nat} (hroom : room < 2 ^ 32) :
    (skeletonOf T room hroom).Represents (numbered T hdeg) where
  louds := rfl
  term := length_replicate
  fits := hfits
  terms := fun s hs => by
    show (replicate T.size true)[s]? = some true
    rw [getElem?_replicate]
    exact if_pos hs

/-- The first children when there are `a` nodes of degree 256, one of degree two and `b` of
    degree one before the leaves. -/
theorem sum_take_wide (a b c s : Nat) :
    ((replicate a 256 ++ 2 :: (replicate b 1 ++ replicate c 0)).take s).sum =
      256 * min s a + (if a < s then 2 else 0) + min (s - (a + 1)) b := by
  rw [take_append, sum_append_nat, length_replicate]
  rcases lt_or_ge a s with h | h
  · obtain ⟨k, rfl⟩ := Nat.exists_eq_add_of_lt h
    rw [show a + k + 1 - a = k + 1 by omega, take_succ_cons, List.sum_cons, take_append]
    simp
    omega
  · rw [if_neg (by omega), show s - a = 0 by omega]
    simp
    omega

/-- `a` nodes of degree 256, one of degree two, `b` of degree one, and leaves. -/
def wideTree (a b : Nat) : LTree where
  deg := replicate a 256 ++ 2 :: (replicate b 1 ++ replicate (255 * a + 2) 0)
  ahead := by
    intro s hs
    rw [sum_take_wide]
    simp only [length_append, length_cons, length_replicate] at hs
    split <;> omega
  whole := by
    simp
    omega

theorem wideTree_first (a b s : Nat) :
    (wideTree a b).first s = 1 + (256 * min s a + (if a < s then 2 else 0) + min (s - (a + 1)) b) :=
  congrArg (1 + ·) (sum_take_wide a b (255 * a + 2) s)

/-- The states of the wide tree. -/
theorem wideTree_size (a b : Nat) : (wideTree a b).size = 256 * a + b + 3 := by
  unfold LTree.size wideTree
  simp only [length_append, length_cons, length_replicate]
  omega

/-- No state of the wide tree has more than 256 children. -/
theorem wideTree_deg (a b s : Nat) :
    (wideTree a b).first (s + 1) ≤ (wideTree a b).first s + 256 := by
  rw [wideTree_first, wideTree_first]
  split <;> split <;> omega

theorem widestLayer_le_size (T : LTree) : widestLayer T ≤ T.size :=
  Finset.sup_le (fun k _ => (sub_le _ _).trans (level_le_size (k + 1)))

/-- The trie of the empty string and two single letters. -/
theorem dict_rank_invertible_three :
    let t := skeletonOf (wideTree 0 0) 2 (by decide)
    let P := numbered (wideTree 0 0) (wideTree_deg 0 0)
    (∀ s, s < P.size → t.stateToDictRank (layersOf t P.toLTree) s = some (P.before P.term s)) ∧
      ∀ r w, [[], [0], [1]][r]? = some w → ∃ x,
        t.dictRankToState (layersOf t P.toLTree) r = some x ∧ x < P.size ∧ P.term x = true ∧
          P.word x = w := by
  intro t P
  have hrep : t.Represents P := skeletonOf_represents (wideTree_deg 0 0) (by decide) (by decide)
  have hstrings : P.strings = [[], [0], [1]] := by decide
  have hheight : P.height ≤ t.room := height_le (k := 2) rfl
  have hinit : t.initForTerm = some (layersOf t P.toLTree) := by
    rw [initForTerm_spec hrep.toCodes, if_pos hheight]
  refine (dict_rank_invertible_iff t P hrep [[], [0], [1]] (by decide)
    (fun w => by rw [← hstrings, mem_strings]) _ hinit).mpr (fun h => ?_)
  have hle := widestLayer_le_size P.toLTree
  have hsize : P.size = 3 := rfl
  omega

/-- **A TRIE THAT IS TOO WIDE**: the levels are full down to one of `2 ^ 32` nodes, of which the
    first has two children and the others one.  The last of these children has a rank from
    which it is not found again. -/
theorem wide_trie_loses_last :
    ∃ (t : Skeleton) (P : PTree) (layers : Layers) (x r : Nat), t.Represents P ∧
      widestLayer P.toLTree = 2 ^ 32 + 1 ∧ t.initForTerm = some layers ∧ x < P.size ∧
      P.term x = true ∧ t.stateToDictRank layers x = some r ∧
      t.dictRankToState layers r ≠ some x := by
  -- only the first children and the size are used of the tree
  obtain ⟨T, hfirst, hsize, hdeg⟩ : ∃ T : LTree,
      (∀ s, T.first s = 1 + (256 * min s 16843009 + (if 16843009 < s then 2 else 0) +
        min (s - (16843009 + 1)) 4294967295)) ∧
      T.size = 256 * 16843009 + 4294967295 + 3 ∧ ∀ s, T.first (s + 1) ≤ T.first s + 256 :=
    ⟨wideTree 16843009 4294967295, wideTree_first _ _, wideTree_size _ _, wideTree_deg _ _⟩
  have h2 : T.level 2 = 257 := by
    rw [level_succ, level_one, hfirst, if_neg (by omega)]
    omega
  have h3 : T.level 3 = 65793 := by
    rw [level_succ, hfirst, if_neg (by omega)]
    omega
  have h4 : T.level 4 = 16843009 := by
    rw [level_succ, hfirst, if_neg (by omega)]
    omega
  have h5 : T.level 5 = 4311810305 := by
    rw [level_succ, hfirst, if_neg (by omega)]
    omega
  have h6 : T.level 6 = T.size := by
    rw [level_succ, hfirst, if_pos (by omega)]
    omega
  have hheight : T.height = 6 := by
    refine le_antisymm (height_le h6) ?_
    by_contra hlt
    have := level_eq_size (T := T) (k := 5) (by omega)
    omega
  have hwidest : widestLayer T = 2 ^ 32 + 1 := by
    refine le_antisymm (Finset.sup_le (fun k hk => ?_)) ?_
    · have hk6 : k < 6 := hheight ▸ Finset.mem_range.mp hk
      rcases (show k ≤ 3 ∨ k = 4 ∨ k = 5 by omega) with hk3 | rfl | rfl
      · have := level_mono (T := T) (show k + 1 ≤ 4 by omega)
        omega
      · show T.level 5 - T.level 4 ≤ _
        omega
      · show T.level 6 - T.level 5 ≤ _
        omega
    · have := width_le_widestLayer (T := T) (k := 5) (by omega)
      rw [h6] at this
      omega
  have hrep : (skeletonOf T 6 (by decide)).Represents (numbered T hdeg) :=
    skeletonOf_represents hdeg (by omega) (by decide)
  have hx : T.At 5 (T.size - 1) := ⟨by omega, by rw [h6]; omega⟩
  refine ⟨skeletonOf T 6 (by decide), numbered T hdeg, layersOf _ T, T.size - 1,
    (numbered T hdeg).before (fun _ => true) (T.size - 1), hrep, hwidest, ?_, hx.lt_size, rfl,
    hrep.rank hx.lt_size, fun hfound => ?_⟩
  · rw [initForTerm_spec hrep.toCodes]
    exact if_pos (show T.height ≤ 6 by omega)
  obtain ⟨-, -, hwidth⟩ := widest_whole (skeletonOf T 6 (by decide)) T
  have hcodes : (skeletonOf T 6 (by decide)).Codes T := hrep.toCodes
  rcases dictRankToState_wide hcodes (show T.height ≤ 6 by omega)
    (by omega) hfound with hprobe | hnil | ⟨k, hk⟩
  · have hle := level_le_size (T := T) (((skeletonOf T 6 (by decide)).widest (wholeLayers T)).1 + 1)
    unfold firstProbe at hprobe
    omega
  · unfold nilState at hnil
    omega
  · have hat := at_level (T := T) (k := k) (by omega)
    rw [← hk] at hat
    have := hat.unique hx
    subst this
    omega

end NestLouds
