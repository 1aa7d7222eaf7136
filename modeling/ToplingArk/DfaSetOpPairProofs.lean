import Mathlib.Data.List.ProdSigma
import ToplingArk.DfaSetOpRunProofs

/-! # Pairs of states

    A pair stands for the words that the operation makes of those of its two states, where a
    state that has died has none.  The pairs that can be found are pairs of states or dead
    states, so there are finitely many. -/

namespace DfaSetOp

open Automata Explore OnflyMinimize GoldHash List Option

/-! ## The table of pairs -/

theorem pairTraits_lawful (b1 b2 : Nat) : Lawful (pairTraits b1 b2) where
  equal_iff := by
    rintro ⟨a, b⟩ ⟨c, d⟩
    show (a == c && b == d) = true ↔ _
    simp

theorem pairTraits_fits (b1 b2 : Nat) (k : Nat × Nat) : (pairTraits b1 b2).Fits k := by
  show uintPairHash b1 b2 k < 2 ^ 64
  unfold uintPairHash
  split
  · exact BitVec.isLt _
  · exact BitVec.isLt _

/-- The table holds the pairs one after the other. -/
structure PairsHold (b1 b2 : Nat) (t : Tab (Nat × Nat)) (keys : List (Nat × Nat)) : Prop where
  wf : WellFormed (pairTraits b1 b2) t
  data : t.data = keys.map Cell.elem
  free : t.freelistSize = 0

variable {b1 b2 i r1 r2 : Nat} {t : Tab (Nat × Nat)} {keys : List (Nat × Nat)} {k m key : Nat × Nat}
  {P : StateTp}

theorem PairsHold.nElem_eq (h : PairsHold b1 b2 t keys) : t.nElem = keys.length := by
  show t.link.length = keys.length
  rw [← h.wf.lengths, h.data, length_map]

/-- The key with number `i` is the element with that number. -/
theorem PairsHold.getElem? (h : PairsHold b1 b2 t keys) (hi : keys[i]? = some k) :
    t.data[i]? = some (.elem k) := by
  rw [h.data, getElem?_map, hi]
  rfl

/-- A known pair keeps its number. -/
theorem PairsHold.insert_old (h : PairsHold b1 b2 t keys) (hi : keys[i]? = some k) :
    (pairs b1 b2).insert t k = some (t, i) := by
  show (insertI (pairTraits b1 b2) t k).map _ = _
  rw [insertI_old (pairTraits_lawful b1 b2) h.wf (h.getElem? hi) rfl]
  rfl

/-- A new pair gets the next number, unless 2^31 are there. -/
theorem PairsHold.insert_new (h : PairsHold b1 b2 t keys) (hk : k ∉ keys) :
    (∃ t', (pairs b1 b2).insert t k = some (t', keys.length) ∧
        PairsHold b1 b2 t' (keys ++ [k])) ∨
      ((pairs b1 b2).insert t k = none ∧ ¬ (keys ++ [k]).length ≤ 2 ^ 31) := by
  have habsent : ∀ e', Cell.elem e' ∈ t.data → e' ≠ k := by
    rintro e' hmem rfl
    rw [h.data] at hmem
    obtain ⟨x, hx, heq⟩ := mem_map.mp hmem
    cases heq
    exact hk hx
  have hn := h.nElem_eq
  have hfits : t.nElem ≤ t.maxElem := h.wf.fits
  by_cases hroom : t.nElem < t.maxElem ∨ 2 * t.nElem ≤ (pairTraits b1 b2).link.delmark
  · obtain ⟨t', hins, hwf, hdata, hfree, -⟩ :=
      insertI_append (pairTraits_lawful b1 b2) h.wf (pairTraits_fits b1 b2 k) habsent h.free hroom
    refine .inl ⟨t', ?_, { wf := hwf, data := ?_, free := hfree }⟩
    · show (insertI (pairTraits b1 b2) t k).map _ = _
      rw [hins, h.data, length_map]
      rfl
    · rw [hdata, h.data, map_append]
      rfl
  have hhalf : ¬ 2 * t.nElem ≤ 2 ^ 32 - 2 := fun hle => hroom (.inr hle)
  have hfull : t.nElem = t.maxElem := by
    rcases Nat.lt_or_eq_of_le hfits with hlt | heq
    · exact absurd (.inl hlt) hroom
    · exact heq
  refine .inr ⟨?_, ?_⟩
  · show (insertI (pairTraits b1 b2) t k).map _ = _
    rw [insertI_full (pairTraits_lawful b1 b2) h.wf (pairTraits_fits b1 b2 k) habsent
      h.free (by omega) hfull
      (show 2 * t.nElem % 2 ^ 32 < t.nElem by omega)]
    rfl
  · rw [length_append, length_singleton]
    omega

/-- **THE TABLE OF PAIRS** numbers them; it grows up to half of what a link can tell. -/
def pairs_lawful (b1 b2 : Nat) :
    LawfulTable (pairs b1 b2) (fun _ => True) (fun l => l.length ≤ 2 ^ 31) where
  Holds := PairsHold b1 b2
  size_eq := fun h => h.nElem_eq
  at_eq := by
    intro t keys i k h hi
    show (t.data[i]?).bind Cell.elem? = some k
    rw [h.getElem? hi]
    rfl
  find_old := fun h hk => h.insert_old (getElem?_idxOf hk)
  find_new := fun h hk _ => h.insert_new hk
  ok_mono := fun _ _ => trivial
  room_mono := fun hpre hle => hpre.length_le.trans hle

/-! ## Merged transitions -/

section Merge

variable (keep1 keep2 : Bool) (dead1 dead2 : Nat) {l : List (Nat × Nat)} {c : Nat}
  {rest : List (Nat × (Nat × Nat))} {e : Nat × (Nat × Nat)}

/-- Where a letter leads from a pair. -/
def combine : Option Nat → Option Nat → Option (Nat × Nat)
  | some t1, some t2 => some (t1, t2)
  | some t1, none => if keep1 then some (t1, dead2) else none
  | none, some t2 => if keep2 then some (dead1, t2) else none
  | none, none => none

theorem target_cons (m : Nat × Nat) (l : List (Nat × Nat)) (c : Nat) :
    target (m :: l) c = if m.1 = c then some m.2 else target l c := rfl

/-- No letter comes before the first transition. -/
theorem target_eq_none_of_lt (hl : Ascending (m :: l)) (hc : c < m.1) :
    target (m :: l) c = none := by
  refine target_eq_none (fun x hx heq => ?_)
  rcases mem_cons.mp hx with rfl | hx
  · omega
  · have := (pairwise_cons.mp hl).1 x hx
    omega

/-- Behind the first transition its letter does not occur. -/
theorem target_tail (hl : Ascending (m :: l)) : target l m.1 = none :=
  target_eq_none (fun x hx heq => absurd ((pairwise_cons.mp hl).1 x hx) (by omega))

variable {keep1 keep2 dead1 dead2}

variable {keep : Bool} {fuel : Nat} {l1 l2 : List (Nat × Nat)}

/-- A letter of one operand alone is kept or left out. -/
theorem lookup_alone {c' : Nat} (hrest : c = c' → rest.lookup c = none) :
    (if keep then (c', key) :: rest else rest).lookup c =
      if c' = c then (if keep then some key else none) else rest.lookup c := by
  by_cases heq : c' = c
  · subst heq
    rw [if_pos rfl]
    cases keep with
    | true => simp
    | false => exact hrest rfl
  · rw [if_neg heq]
    cases keep with
    | true =>
      rw [if_pos rfl, lookup_cons, beq_eq_false_iff_ne.mpr (Ne.symm heq)]
    | false => rfl

/-- **MERGED TRANSITIONS** lead to the pairs of what the transitions lead to. -/
theorem lookup_mergeMoves (h1 : Ascending l1) (h2 : Ascending l2)
    (hfuel : l1.length + l2.length ≤ fuel) (c : Nat) :
    (mergeMoves keep1 keep2 dead1 dead2 fuel l1 l2).lookup c =
      combine keep1 keep2 dead1 dead2 (target l1 c) (target l2 c) := by
  induction fuel generalizing l1 l2 with
  | zero =>
    obtain rfl : l1 = [] := length_eq_zero_iff.mp (by omega)
    obtain rfl : l2 = [] := length_eq_zero_iff.mp (by omega)
    rfl
  | succ fuel ih =>
    match l1, l2 with
    | [], [] => rfl
    | ct1 :: l1, [] =>
      have ih1 := ih h1.of_cons h2 (by simpa using hfuel)
      show (if keep1 then _ :: mergeMoves keep1 keep2 dead1 dead2 fuel l1 [] else _).lookup c = _
      rw [lookup_alone (fun heq => by rw [ih1, heq, target_tail h1]; rfl), ih1, target_cons]
      split
      · rfl
      · rfl
    | [], ct2 :: l2 =>
      have ih2 := ih h1 h2.of_cons (by simpa using hfuel)
      show (if keep2 then _ :: mergeMoves keep1 keep2 dead1 dead2 fuel [] l2 else _).lookup c = _
      rw [lookup_alone (fun heq => by rw [ih2, heq, target_tail h2]; rfl), ih2, target_cons]
      split
      · rfl
      · rfl
    | ct1 :: l1, ct2 :: l2 =>
      have hlen : l1.length + 1 + (l2.length + 1) ≤ fuel + 1 := hfuel
      show lookup c (if ct1.1 = ct2.1 then _ else _) = _
      -- one letter on both sides, or the smaller one alone
      split
      next heq =>
        rw [lookup_cons, ih h1.of_cons h2.of_cons (by omega), target_cons,
          target_cons, ← heq]
        by_cases hc : ct1.1 = c
        · rw [if_pos hc, if_pos hc, beq_iff_eq.mpr hc.symm]
          rfl
        · rw [if_neg hc, if_neg hc, beq_eq_false_iff_ne.mpr (Ne.symm hc)]
      by_cases hlt : ct1.1 < ct2.1
      · have ih1 := ih h1.of_cons h2 (by simp only [length_cons]; omega)
        have hnone := target_eq_none_of_lt h2 hlt
        rw [if_pos hlt]
        rw [lookup_alone (fun hc => by rw [ih1, hc, target_tail h1, hnone]; rfl), ih1,
          target_cons ct1]
        by_cases hc : ct1.1 = c
        · rw [if_pos hc, if_pos hc, ← hc, hnone]
          rfl
        · rw [if_neg hc, if_neg hc]
      have hgt : ct2.1 < ct1.1 := by omega
      have ih2 := ih h1 h2.of_cons (by simp only [length_cons]; omega)
      have hnone := target_eq_none_of_lt h1 hgt
      rw [if_neg hlt]
      rw [lookup_alone (fun hc => by rw [ih2, hc, target_tail h2, hnone]; rfl), ih2,
        target_cons ct2]
      by_cases hc : ct2.1 = c
      · rw [if_pos hc, if_pos hc, ← hc, hnone]
        rfl
      · rw [if_neg hc, if_neg hc]

/-- One more transition, if that side is kept. -/
theorem mem_alone {m : Nat × (Nat × Nat)} (h : m ∈ if keep then e :: rest else rest) :
    m = e ∨ m ∈ rest := by
  cases keep with
  | true => exact mem_cons.mp h
  | false => exact .inr h

/-- Merging brings in no smaller letters. -/
theorem mergeMoves_above {b : Nat} (h1 : ∀ x ∈ l1, b < x.1) (h2 : ∀ x ∈ l2, b < x.1) :
    ∀ m ∈ mergeMoves keep1 keep2 dead1 dead2 fuel l1 l2, b < m.1 := by
  induction fuel generalizing l1 l2 with
  | zero => exact fun m hm => nomatch hm
  | succ fuel ih =>
    intro m hm
    match l1, l2 with
    | [], [] => exact nomatch hm
    | ct1 :: l1, [] =>
      obtain ⟨hhead, htail⟩ := forall_mem_cons.mp h1
      rcases mem_alone hm with rfl | hm
      · exact hhead
      · exact ih htail h2 m hm
    | [], ct2 :: l2 =>
      obtain ⟨hhead, htail⟩ := forall_mem_cons.mp h2
      rcases mem_alone hm with rfl | hm
      · exact hhead
      · exact ih h1 htail m hm
    | ct1 :: l1, ct2 :: l2 =>
      obtain ⟨hhead1, htail1⟩ := forall_mem_cons.mp h1
      obtain ⟨hhead2, htail2⟩ := forall_mem_cons.mp h2
      have hm' : m ∈ if ct1.1 = ct2.1 then _ else _ := hm
      split at hm'
      · rcases mem_cons.mp hm' with rfl | hm'
        · exact hhead1
        · exact ih htail1 htail2 m hm'
      · split at hm'
        · rcases mem_alone hm' with rfl | hm'
          · exact hhead1
          · exact ih htail1 h2 m hm'
        · rcases mem_alone hm' with rfl | hm'
          · exact hhead2
          · exact ih h1 htail2 m hm'

theorem pairwise_alone (habove : ∀ m ∈ rest, e.1 < m.1)
    (hrest : rest.Pairwise (fun m m' => m.1 < m'.1)) :
    (if keep then e :: rest else rest).Pairwise (fun m m' => m.1 < m'.1) := by
  cases keep with
  | true => exact pairwise_cons.mpr ⟨habove, hrest⟩
  | false => exact hrest

/-- Merged transitions are in order. -/
theorem mergeMoves_pairwise (h1 : Ascending l1) (h2 : Ascending l2) :
    (mergeMoves keep1 keep2 dead1 dead2 fuel l1 l2).Pairwise (fun m m' => m.1 < m'.1) := by
  have hnil : ∀ b, ∀ x ∈ ([] : List (Nat × Nat)), b < x.1 := fun b x hx => nomatch hx
  induction fuel generalizing l1 l2 with
  | zero => exact .nil
  | succ fuel ih =>
    match l1, l2 with
    | [], [] => exact .nil
    | ct1 :: l1, [] =>
      obtain ⟨habove, htail⟩ := pairwise_cons.mp h1
      exact pairwise_alone (mergeMoves_above habove (hnil _)) (ih htail h2)
    | [], ct2 :: l2 =>
      obtain ⟨habove, htail⟩ := pairwise_cons.mp h2
      exact pairwise_alone (mergeMoves_above (hnil _) habove) (ih h1 htail)
    | ct1 :: l1, ct2 :: l2 =>
      obtain ⟨habove1, htail1⟩ := pairwise_cons.mp h1
      obtain ⟨habove2, htail2⟩ := pairwise_cons.mp h2
      show List.Pairwise _ (if ct1.1 = ct2.1 then _ else _)
      split
      · rename_i heq
        refine pairwise_cons.mpr ⟨mergeMoves_above habove1 ?_, ih htail1 htail2⟩
        exact fun x hx => heq ▸ habove2 x hx
      · split
        · rename_i hlt
          refine pairwise_alone (mergeMoves_above habove1 ?_) (ih htail1 h2)
          exact forall_mem_cons.mpr ⟨hlt, fun x hx => hlt.trans (habove2 x hx)⟩
        · have hlt : ct2.1 < ct1.1 := by omega
          refine pairwise_alone (mergeMoves_above ?_ habove2) (ih h1 htail2)
          exact forall_mem_cons.mpr ⟨hlt, fun x hx => hlt.trans (habove1 x hx)⟩

end Merge

/-! ## The transitions of a pair -/

variable {O : Kind} {A B : Src}

theorem movesOf_ascending (A : Src) (mayDie : Bool) (p : Nat) : Ascending (movesOf A mayDie p) := by
  unfold movesOf
  split
  · exact .nil
  · exact A.ascending p

variable {p : Nat}

/-- The transitions of an operand are those of its state. -/
theorem mem_movesOf {mayDie : Bool} (h : m ∈ movesOf A mayDie p) : m ∈ A.moves p := by
  unfold movesOf at h
  split at h
  · cases h
  · exact h

/-- No state has the number of the dead operand. -/
theorem Src.ne_dead (hp : p < A.states) : p ≠ A.dead := by
  have := A.few
  unfold Src.dead
  omega

/-- Where a letter leads from a pair, by the transitions of its states. -/
theorem lookup_pairSucc (O : Kind) (A B : Src) (key : Nat × Nat) (c : Nat) :
    (pairSucc O A B key).lookup c = combine O.keep1 O.keep2 A.dead B.dead
      (target (movesOf A O.keep2 key.1) c) (target (movesOf B O.keep1 key.2) c) :=
  lookup_mergeMoves (movesOf_ascending A _ _) (movesOf_ascending B _ _) le_rfl c

theorem pairSucc_pairwise (O : Kind) (A B : Src) (key : Nat × Nat) :
    (pairSucc O A B key).Pairwise (fun m m' => m.1 < m'.1) :=
  mergeMoves_pairwise (movesOf_ascending A _ _) (movesOf_ascending B _ _)

/-- A pair has one transition for a letter. -/
theorem pairSucc_distinct (O : Kind) (A B : Src) (key : Nat × Nat) :
    ((pairSucc O A B key).map Prod.fst).Nodup :=
  pairwise_map.mpr ((pairSucc_pairwise O A B key).imp Nat.ne_of_lt)

/-- What a transition of a pair is made of. -/
theorem mem_pairSucc {m : Nat × (Nat × Nat)} (h : m ∈ pairSucc O A B key) :
    ((m.1, m.2.1) ∈ A.moves key.1 ∨ m.2.1 = A.dead) ∧
      ((m.1, m.2.2) ∈ B.moves key.2 ∨ m.2.2 = B.dead) ∧
      ((m.1, m.2.1) ∈ A.moves key.1 ∨ (m.1, m.2.2) ∈ B.moves key.2) := by
  have hlook := lookup_of_mem (pairSucc_distinct O A B key) h
  rw [lookup_pairSucc] at hlook
  have hmem1 : ∀ t, target (movesOf A O.keep2 key.1) m.1 = some t → (m.1, t) ∈ A.moves key.1 :=
    fun t ht => mem_movesOf (mem_of_target ht)
  have hmem2 : ∀ t, target (movesOf B O.keep1 key.2) m.1 = some t → (m.1, t) ∈ B.moves key.2 :=
    fun t ht => mem_movesOf (mem_of_target ht)
  cases ht1 : target (movesOf A O.keep2 key.1) m.1 with
  | none =>
    cases ht2 : target (movesOf B O.keep1 key.2) m.1 with
    | none =>
      rw [ht1, ht2] at hlook
      cases hlook
    | some t2 =>
      rw [ht1, ht2] at hlook
      have hkey : (if O.keep2 then some (A.dead, t2) else none) = some m.2 := hlook
      split at hkey
      · rw [← some.inj hkey]
        exact ⟨.inr rfl, .inl (hmem2 t2 ht2), .inr (hmem2 t2 ht2)⟩
      · cases hkey
  | some t1 =>
    cases ht2 : target (movesOf B O.keep1 key.2) m.1 with
    | none =>
      rw [ht1, ht2] at hlook
      have hkey : (if O.keep1 then some (t1, B.dead) else none) = some m.2 := hlook
      split at hkey
      · rw [← some.inj hkey]
        exact ⟨.inl (hmem1 t1 ht1), .inr rfl, .inl (hmem1 t1 ht1)⟩
      · cases hkey
    | some t2 =>
      rw [ht1, ht2] at hlook
      have hkey : some (t1, t2) = some m.2 := hlook
      rw [← some.inj hkey]
      exact ⟨.inl (hmem1 t1 ht1), .inl (hmem2 t2 ht2), .inl (hmem1 t1 ht1)⟩

/-- The transitions of every pair can be stored. -/
theorem pairs_ordered (O : Kind) (h1 : A.sigma ≤ P.sigma) (h2 : B.sigma ≤ P.sigma) :
    Ordered P (pairSucc O A B) id where
  perm := fun l => .refl l
  distinct := pairSucc_distinct O A B
  ascending := by
    rintro l ⟨key, hl⟩
    have hasc : ((pairSucc O A B key).map Prod.fst).Pairwise (· < ·) :=
      pairwise_map.mpr (pairSucc_pairwise O A B key)
    rw [← hl] at hasc
    exact pairwise_map.mp hasc
  letters := by
    intro key m hm
    rcases (mem_pairSucc hm).2.2 with hm | hm
    · exact Nat.lt_of_lt_of_le (A.letters _ _ hm) h1
    · exact Nat.lt_of_lt_of_le (B.letters _ _ hm) h2

/-- **PAIRS** consist of states and dead states, so there are finitely many. -/
theorem pairs_within (O : Kind) (h1 : r1 < A.states) (h2 : r2 < B.states) :
    Within (pairSucc O A B) (r1, r2)
      (fun l => l.length ≤ (A.states + 1) * (B.states + 1)) := by
  have hreach : ∀ key, Reach (pairSucc O A B) (r1, r2) key →
      key.1 ∈ A.dead :: range A.states ∧ key.2 ∈ B.dead :: range B.states := by
    intro key hkey
    induction hkey with
    | refl =>
      exact ⟨mem_cons_of_mem _ (mem_range.mpr h1),
        mem_cons_of_mem _ (mem_range.mpr h2)⟩
    | tail _ hstep _ =>
      obtain ⟨c, hc⟩ := hstep
      obtain ⟨hm1, hm2, -⟩ := mem_pairSucc hc
      constructor
      · rcases hm1 with hm | hm
        · have hlt : _ < A.states := A.targets _ _ hm
          exact mem_cons_of_mem _ (mem_range.mpr hlt)
        · rw [hm]
          exact mem_cons_self
      · rcases hm2 with hm | hm
        · have hlt : _ < B.states := B.targets _ _ hm
          exact mem_cons_of_mem _ (mem_range.mpr hlt)
        · rw [hm]
          exact mem_cons_self
  intro l hnodup hl
  have hsub : l ⊆ (A.dead :: range A.states) ×ˢ (B.dead :: range B.states) :=
    fun key hkey => pair_mem_product.mpr (hreach key (hl key hkey))
  have hle := (hnodup.subperm hsub).length_le
  rw [length_product, length_cons, length_cons, length_range, length_range] at hle
  exact hle

/-! ## The words of a pair -/

/-- What an operation on words has to do with the letters it leaves out. -/
structure Kind.Lawful (O : Kind) : Prop where
  nothing : O.final false false = false
  left : O.keep1 = false → ∀ x, O.final x false = false
  right : O.keep2 = false → ∀ y, O.final false y = false

/-- Union, on the dead operand too. -/
theorem union_lawful : union.Lawful where
  nothing := rfl
  left := fun h => nomatch h
  right := fun h => nomatch h

/-- Intersection, which never meets a dead operand. -/
theorem intersection_lawful : intersection.Lawful where
  nothing := rfl
  left := fun _ x => Bool.and_false x
  right := fun _ _ => rfl

/-- Difference, whose second operand may die. -/
theorem difference_lawful : difference.Lawful where
  nothing := rfl
  left := fun h => nomatch h
  right := fun _ _ => rfl

/-- Whether an operand has the word; a dead one has none. -/
def accOf (A : Src) (mayDie : Bool) (p : Nat) (w : List Nat) : Bool :=
  !(mayDie && p == A.dead) && A.dfa.accepts p w

theorem accOf_state (A : Src) (mayDie : Bool) (hp : p < A.states) (w : List Nat) :
    accOf A mayDie p w = A.dfa.accepts p w := by
  unfold accOf
  rw [beq_eq_false_iff_ne.mpr (Src.ne_dead hp), Bool.and_false]
  rfl

/-- The dead operand accepts nothing. -/
theorem accOf_dead (A : Src) (w : List Nat) : accOf A true A.dead w = false := by
  unfold accOf
  rw [beq_self_eq_true]
  rfl

/-- Reading a letter on one side of a pair. -/
theorem accOf_cons (A : Src) (mayDie : Bool) (p c : Nat) (w : List Nat) :
    accOf A mayDie p (c :: w) =
      (target (movesOf A mayDie p) c).elim false (fun t => accOf A mayDie t w) := by
  unfold movesOf
  by_cases hdead : (mayDie && p == A.dead) = true
  · unfold accOf
    rw [hdead]
    rfl
  rw [if_neg hdead]
  show (!(mayDie && p == A.dead) && A.dfa.accepts p (c :: w)) = _
  rw [Bool.eq_false_iff.mpr hdead]
  cases ht : target (A.moves p) c with
  | none => exact Dfa.accepts_cons_none ht w
  | some t =>
    rw [Dfa.accepts_cons_some ht]
    exact (accOf_state A mayDie (A.targets p _ (mem_of_target ht)) w).symm

/-- **A PAIR** has the words that the operation makes of those of its operands. -/
theorem pair_accepts (hO : O.Lawful) (A B : Src) (key : Nat × Nat) (w : List Nat) :
    (keyDfa (pairSucc O A B) (pairFinal O A B)).accepts key w =
      O.final (accOf A O.keep2 key.1 w) (accOf B O.keep1 key.2 w) := by
  induction w generalizing key with
  | nil => rfl
  | cons c w ih =>
    rw [accOf_cons, accOf_cons]
    show ((pairSucc O A B key).lookup c).elim false _ = _
    rw [lookup_pairSucc]
    cases target (movesOf A O.keep2 key.1) c with
    | none =>
      cases target (movesOf B O.keep1 key.2) c with
      | none => exact hO.nothing.symm
      | some t2 =>
        cases hkeep : O.keep2 with
        | true =>
          refine (ih (A.dead, t2)).trans ?_
          rw [hkeep, accOf_dead]
          rfl
        | false => exact (hO.right hkeep _).symm
    | some t1 =>
      cases target (movesOf B O.keep1 key.2) c with
      | none =>
        cases hkeep : O.keep1 with
        | true =>
          refine (ih (t1, B.dead)).trans ?_
          rw [hkeep, accOf_dead]
          rfl
        | false => exact (hO.left hkeep _).symm
      | some t2 => exact ih (t1, t2)

/-! ## The product -/

/-- **THE PRODUCT** ends with an automaton of all pairs, unless there are too many. -/
theorem product_spec (O : Kind) (h1 : r1 < A.states) (h2 : r2 < B.states) (hs1 : A.sigma ≤ P.sigma)
    (hs2 : B.sigma ≤ P.sigma) (m1 m2 powerLimit : Nat) :
    (∃ s keys, product P O A r1 m1 B r2 m2 powerLimit = some s.2 ∧
        Explored P (pairs_lawful A.idBits B.idBits) (pairSucc O A B) (pairFinal O A B) id (r1, r2)
          keys.length s keys) ∨
      (product P O A r1 m1 B r2 m2 powerLimit = none ∧
        ¬ (m1 + m2 ≤ 2 ^ 32 - 2 ∧ Within (pairSucc O A B) (r1, r2)
          (Enough P (fun l => l.length ≤ 2 ^ 31) (fun l => 2 * l.length) powerLimit
            (keyLen P (pairSucc O A B) id)))) := by
  by_cases hres : m1 + m2 ≤ 2 ^ 32 - 2
  · obtain ⟨t0, hreserve, hwf, hdata, hfree, -⟩ :=
      reserve_init (pairTraits A.idBits B.idBits) hres
    have hempty : PairsHold A.idBits B.idBits t0 [] := ⟨hwf, hdata, hfree⟩
    rcases hempty.insert_new (k := (r1, r2)) (not_mem_nil) with ⟨t1, hins, h⟩ | ⟨-, hfull⟩
    · unfold product
      rw [hreserve, bind_some, hins]
      have hpower : ∀ {t keys}, (pairs_lawful A.idBits B.idBits).Holds t keys →
          2 * Tab.size t = 2 * keys.length := by
        intro t keys h
        unfold Tab.size
        rw [h.nElem_eq, h.free]
        rfl
      rcases explore_spec (pairs_ordered O hs1 hs2) (fun _ _ _ => trivial) hpower
        (pairs_within O h1 h2) (Explored.start h) (Nat.lt_succ_self _) with
        ⟨s, keys, hrun, hdone⟩ | ⟨hrun, hfull⟩
      · exact .inl ⟨s, keys, congrArg (Option.map Prod.snd) hrun, hdone⟩
      · exact .inr ⟨congrArg (Option.map Prod.snd) hrun, fun hcap => hfull hcap.2⟩
    · exact absurd (by show 1 ≤ 2 ^ 31; decide) hfull
  · refine .inr ⟨?_, fun hcap => hres hcap.1⟩
    have hwide : (pairTraits A.idBits B.idBits).link.delmark < m1 + m2 := not_le.mp hres
    unfold product
    rw [reserve_init_none _ hwide]
    rfl

end DfaSetOp
