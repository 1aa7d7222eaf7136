import Mathlib.Data.List.Nodup
import Mathlib.Data.List.TakeWhile

/-! # Skip lists — chains of nodes on several levels

    One list of nodes, each with a height: on level `k` the nodes with a height above `k` are
    linked, in the order of the list.  The links are given by a function of a node (or the
    head of the list, `none`) and a level; its value is `none` for a link that cannot be read
    and `some none` at the end of a level.  Nothing here needs the list to be sorted. -/

namespace SkipList

open List Option Nat

variable {α : Type} {n1 n2 : Option α} {size : Nat}

/-- From `r` on, the links of level `k` lead through the nodes of the list to the end. -/
def Linked (next : Option α → Nat → Option (Option α)) (k : Nat) : Option α → List α → Prop
  | r, [] => next r k = some none
  | r, q :: l => next r k = some (some q) ∧ Linked next k (some q) l

/-- The nodes of level `k`. -/
def level (h : α → Nat) (k : Nat) (l : List α) : List α := l.filter (fun q => decide (k < h q))

/-- Forward on level `k` over the nodes that are small; also the last node that was read. -/
def walkLevel (next : Option α → Nat → Option (Option α)) (small : α → Option Bool) (k : Nat) :
    Nat → Option α → Option α → Option (Option α × Option α)
  | 0, _, _ => none
  | fuel + 1, n1, n2 =>
    (next n1 k).bind (fun
      | none => some (n1, n2)
      | some q => (small q).bind (fun b =>
        if b then walkLevel next small k fuel (some q) (some q) else some (n1, some q)))

/-- From the highest level down; `update` collects where each level was left. -/
def search (next : Option α → Nat → Option (Option α)) (small : α → Option Bool) (fuel : Nat) :
    Nat → Option α → Option α → List (Option α) → Option (List (Option α) × Option α)
  | 0, _, n2, update => some (update, n2)
  | k + 1, n1, n2, update =>
    (walkLevel next small k fuel n1 n2).bind (fun r =>
      search next small fuel k r.1 r.2 (r.1 :: update))

variable {next next' : Option α → Nat → Option (Option α)} {small : α → Option Bool}
  {h : α → Nat} {k : Nat}

/-! ## Links -/

variable {a b l : List α} {r : Option α} {fuel : Nat} {s : α → Bool} {q : α}

/-- A level only depends on the link to it and the links of its nodes. -/
theorem Linked.congr {r' : Option α} (hl : Linked next k r l) (hr : next' r' k = next r k)
    (hsame : ∀ q ∈ l, next' (some q) k = next (some q) k) : Linked next' k r' l := by
  induction l generalizing r r' with
  | nil => exact hr.trans hl
  | cons q l ih =>
    refine ⟨hr.trans hl.1, ih hl.2 (hsame q mem_cons_self) ?_⟩
    intro x hx
    exact hsame x (mem_cons_of_mem _ hx)

theorem getLast?_cons_or (q : α) (l : List α) (r : Option α) :
    (q :: l).getLast?.or r = l.getLast?.or (some q) := by
  rw [getLast?_cons]
  cases l.getLast? with
  | none => rfl
  | some x => rfl

/-- A list can be followed from its middle. -/
theorem Linked.after (hl : Linked next k r (a ++ b)) : Linked next k (a.getLast?.or r) b := by
  induction a generalizing r with
  | nil => exact hl
  | cons q a ih =>
    rw [getLast?_cons_or]
    exact ih hl.2

/-- The last node of a list is one of its nodes. -/
theorem getLast?_or_cases (l : List α) (r : Option α) :
    l.getLast?.or r = r ∧ l = [] ∨ ∃ q ∈ l, l.getLast?.or r = some q := by
  cases hlast : l.getLast? with
  | none => exact .inl ⟨rfl, getLast?_eq_none_iff.mp hlast⟩
  | some q => exact .inr ⟨q, mem_of_getLast? hlast, rfl⟩

/-- The links behind the nodes of `a` may lead elsewhere. -/
theorem Linked.splice {b' : List α} (hl : Linked next k r (a ++ b)) (hnodup : a.Nodup)
    (hr : ∀ x ∈ a, r ≠ some x)
    (hsame : ∀ r', (r' = r ∨ ∃ x ∈ a, r' = some x) → r' ≠ a.getLast?.or r →
      next' r' k = next r' k) (hback : Linked next' k (a.getLast?.or r) b') :
    Linked next' k r (a ++ b') := by
  induction a generalizing r with
  | nil => exact hback
  | cons y a ih =>
    rw [getLast?_cons_or] at hsame hback
    have hne : r ≠ a.getLast?.or (some y) := by
      rcases getLast?_or_cases a (some y) with ⟨hlast, -⟩ | ⟨x, hx, hlast⟩
      · rw [hlast]
        exact hr y mem_cons_self
      · rw [hlast]
        exact hr x (mem_cons_of_mem _ hx)
    refine ⟨(hsame r (.inl rfl) hne).trans hl.1,
      ih hl.2 (nodup_cons.mp hnodup).2 ?_ ?_ hback⟩
    · intro x hx heq
      exact (nodup_cons.mp hnodup).1 (some.inj heq ▸ hx)
    · rintro r' (rfl | ⟨x, hx, rfl⟩)
      · exact hsame _ (.inr ⟨y, mem_cons_self, rfl⟩)
      · exact hsame _ (.inr ⟨x, mem_cons_of_mem _ hx, rfl⟩)

section Splice

variable {r : Option α} {a b : List α} {q : α} (hnodup : (a ++ q :: b).Nodup)
  (hr : ∀ x ∈ a ++ q :: b, r ≠ some x)
  (hsame : ∀ r', (r' = r ∨ ∃ x ∈ a ++ b, r' = some x) → r' ≠ a.getLast?.or r → r' ≠ some q →
    next' r' k = next r' k)

include hnodup hr hsame

/-- Behind the change the links are the same. -/
theorem same_behind : ∀ x ∈ b, next' (some x) k = next (some x) k := by
  intro x hx
  have hdisjoint := nodup_append.mp hnodup
  have hmem : x ∈ q :: b := mem_cons_of_mem _ hx
  refine hsame _ (.inr ⟨x, mem_append_right _ hx, rfl⟩) (fun heq => ?_) (fun heq => ?_)
  · rcases getLast?_or_cases a r with ⟨hlast, -⟩ | ⟨y, hy, hlast⟩
    · exact hr x (mem_append_right _ hmem) (hlast.symm.trans heq.symm)
    · exact hdisjoint.2.2 y hy x hmem (mem_unique hlast heq.symm)
  · exact (nodup_cons.mp hdisjoint.2.1).1 (some.inj heq ▸ hx)

/-- Ahead of the change the links are the same. -/
theorem same_ahead (r' : Option α) (hmem : r' = r ∨ ∃ x ∈ a, r' = some x)
    (hlast : r' ≠ a.getLast?.or r) : next' r' k = next r' k := by
  have hq : q ∈ q :: b := mem_cons_self
  rcases hmem with rfl | ⟨x, hx, rfl⟩
  · exact hsame r' (.inl rfl) hlast (hr q (mem_append_right _ hq))
  · refine hsame _ (.inr ⟨x, mem_append_left _ hx, rfl⟩) hlast (fun heq => ?_)
    exact (nodup_append.mp hnodup).2.2 x hx q hq (some.inj heq)

/-- **INSERTING** a node behind another one. -/
theorem Linked.insert (hl : Linked next k r (a ++ b))
    (hnew : next' (a.getLast?.or r) k = some (some q))
    (hq : next' (some q) k = next (a.getLast?.or r) k) : Linked next' k r (a ++ q :: b) :=
  hl.splice (nodup_append.mp hnodup).1 (fun x hx => hr x (mem_append_left _ hx))
    (same_ahead hnodup hr hsame) ⟨hnew, hl.after.congr hq (same_behind hnodup hr hsame)⟩

/-- **REMOVING** a node. -/
theorem Linked.remove (hl : Linked next k r (a ++ q :: b))
    (hnew : next' (a.getLast?.or r) k = next (some q) k) : Linked next' k r (a ++ b) :=
  hl.splice (nodup_append.mp hnodup).1 (fun x hx => hr x (mem_append_left _ hx))
    (same_ahead hnodup hr hsame) (hl.after.2.congr hnew (same_behind hnodup hr hsame))

end Splice

/-! ## Walking -/

/-- **A WALK** goes behind the small nodes in front. -/
theorem walkLevel_eq (hl : Linked next k n1 l) (hsmall : ∀ q ∈ l, small q = some (s q))
    (hfuel : l.length < fuel) :
    walkLevel next small k fuel n1 n2 =
      some ((l.takeWhile s).getLast?.or n1, (l.dropWhile s).head?.or (l.getLast?.or n2)) := by
  induction l generalizing n1 n2 fuel with
  | nil =>
    obtain ⟨fuel, rfl⟩ : ∃ f, fuel = f + 1 := ⟨fuel - 1, by simp at hfuel; omega⟩
    show (next n1 k).bind _ = _
    rw [hl]
    rfl
  | cons q l ih =>
    obtain ⟨fuel, rfl⟩ : ∃ f, fuel = f + 1 := ⟨fuel - 1, by simp at hfuel; omega⟩
    have hrest : walkLevel next small k fuel (some q) (some q) =
        some ((l.takeWhile s).getLast?.or (some q),
          (l.dropWhile s).head?.or (l.getLast?.or (some q))) :=
      ih hl.2 (fun x hx => hsmall x (mem_cons_of_mem _ hx)) (by simpa using hfuel)
    show (next n1 k).bind _ = _
    rw [hl.1, bind_some]
    dsimp only
    rw [hsmall q mem_cons_self, bind_some]
    cases hs : s q with
    | true =>
      rw [if_pos rfl, hrest, takeWhile_cons_of_pos hs, dropWhile_cons_of_pos hs,
        getLast?_cons_or, getLast?_cons_or]
    | false =>
      have hneg : ¬ s q = true := by
        rw [hs]
        exact Bool.false_ne_true
      rw [takeWhile_cons_of_neg hneg, dropWhile_cons_of_neg hneg]
      rfl

theorem level_append (a b : List α) : level h k (a ++ b) = level h k a ++ level h k b :=
  filter_append a b

theorem level_cons_of_lt (hq : k < h q) (l : List α) : level h k (q :: l) = q :: level h k l :=
  filter_cons_of_pos (p := fun q => decide (k < h q)) (decide_eq_true hq)

theorem level_cons_of_ge (hq : ¬ k < h q) (l : List α) : level h k (q :: l) = level h k l :=
  filter_cons_of_neg (p := fun q => decide (k < h q)) (by simpa using hq)

/-- The nodes of a level are those that are high enough. -/
theorem mem_level : q ∈ level h k l ↔ q ∈ l ∧ k < h q := by
  unfold level
  rw [mem_filter, decide_eq_true_iff]

theorem level_eq_nil (hl : ∀ q ∈ l, ¬ k < h q) : level h k l = [] := by
  refine eq_nil_iff_forall_not_mem.mpr (fun q hq => ?_)
  exact hl q (mem_level.mp hq).1 (mem_level.mp hq).2

/-- A cut of a level is a cut of the list right behind the node where the level is cut. -/
theorem exists_split (hl : level h k l = a ++ b) :
    ∃ m l', l = m ++ l' ∧ level h k m = a ∧ level h k l' = b ∧ m.getLast? = a.getLast? := by
  induction a generalizing l with
  | nil => exact ⟨[], l, rfl, rfl, hl, rfl⟩
  | cons q a ih =>
    obtain ⟨l1, l2, rfl, hno, hq, hrest⟩ := filter_eq_cons_iff.mp hl
    obtain ⟨m, l', rfl, hm, hl', hlast⟩ := ih hrest
    refine ⟨l1 ++ q :: m, l', by rw [append_assoc, cons_append], ?_, hl', ?_⟩
    · have hnil : level h k l1 = [] :=
        level_eq_nil (fun x hx hlt => hno x hx (decide_eq_true hlt))
      rw [level_append, hnil, nil_append, level_cons_of_lt (of_decide_eq_true hq), hm]
    · rw [getLast?_append_cons, getLast?_cons, getLast?_cons, hlast]

/-- When the last node is on the level, it is the last of the level. -/
theorem getLast?_level (hlast : ∀ q, l.getLast? = some q → k < h q) :
    (level h k l).getLast? = l.getLast? := by
  cases hq : l.getLast? with
  | none =>
    rw [getLast?_eq_none_iff.mp hq]
    rfl
  | some q =>
    obtain ⟨a, rfl⟩ := getLast?_eq_some_iff.mp hq
    rw [level_append, level_cons_of_lt (hlast q hq), getLast?_append_cons]
    rfl

/-- Where a search stands: the list is cut behind the node `n1`, above the level the cuts of
    the levels are recorded, and what follows there is not small. -/
structure Searching (h : α → Nat) (s : α → Bool) (l : List α) (size k : Nat) (n1 n2 : Option α)
    (update : List (Option α)) (a b : List α) : Prop where
  split : l = a ++ b
  left : n1 = a.getLast?
  high : ∀ q, a.getLast? = some q → k ≤ h q
  length : update.length = size - k
  recorded : ∀ j, k ≤ j → j < size → update[j - k]? = some (level h j a).getLast?
  ahead : ∀ j q, k ≤ j → j < size → (level h j b).head? = some q → s q = false
  found : k < size → ∀ q, (level h k b).head? = some q → n2 = some q
  seen : ∀ q, n2 = some q → q ∈ l ∧ (s q = true ∨ q ∈ b)

/-- **ONE LEVEL** of a search. -/
theorem Searching.step {update : List (Option α)}
    (hs : Searching h s l size (k + 1) n1 n2 update a b) (hsize : k < size)
    (hl : Linked next k none (level h k l)) (hsmall : ∀ q ∈ l, small q = some (s q))
    (hfuel : l.length < fuel) :
    ∃ n1' n2' a' b', walkLevel next small k fuel n1 n2 = some (n1', n2') ∧
      Searching h s l size k n1' n2' (n1' :: update) a' b' := by
  have hlast : (level h k a).getLast? = n1 := by
    rw [hs.left]
    exact getLast?_level hs.high
  rw [hs.split, level_append] at hl
  have hb : Linked next k n1 (level h k b) := by
    have := hl.after
    rw [hlast, or_none] at this
    exact this
  have hsub : ∀ q ∈ level h k b, q ∈ l := by
    intro q hq
    rw [hs.split]
    exact mem_append_right _ (mem_level.mp hq).1
  have hlen : (level h k b).length < fuel := by
    have h1 : (level h k b).length ≤ b.length := length_filter_le _ _
    have h2 : b.length ≤ l.length := by
      rw [hs.split, length_append]
      exact le_add_left _ _
    omega
  obtain ⟨m, b', hsplit, hm, hb', hmlast⟩ := exists_split
    (show level h k b = (level h k b).takeWhile s ++ (level h k b).dropWhile s from
      takeWhile_append_dropWhile.symm)
  -- the nodes walked over are small, so none of them is on a higher level
  have hnone : ∀ j, k < j → j < size → level h j m = [] := by
    intro j hkj hj
    cases hhead : level h j m with
    | nil => rfl
    | cons q rest =>
      have hfirst : (level h j b).head? = some q := by
        rw [hsplit, level_append, hhead]
        rfl
      have hq : q ∈ level h j m := by
        rw [hhead]
        exact mem_cons_self
      have hmem : q ∈ (level h k b).takeWhile s := by
        rw [← hm]
        exact mem_level.mpr ⟨(mem_level.mp hq).1, hkj.trans (mem_level.mp hq).2⟩
      have hfalse := hs.ahead j q hkj hj hfirst
      rw [mem_takeWhile_imp hmem] at hfalse
      cases hfalse
  refine ⟨_, _, a ++ m, b', walkLevel_eq hb (fun q hq => hsmall q (hsub q hq)) hlen, ?_⟩
  refine { split := ?_, left := ?_, high := ?_, length := ?_, recorded := ?_, ahead := ?_,
           found := ?_, seen := ?_ }
  · rw [hs.split, hsplit, append_assoc]
  · rw [getLast?_append, hmlast, hs.left]
  · intro q hq
    rw [getLast?_append, hmlast] at hq
    rcases or_eq_some_iff.mp hq with hnew | ⟨-, hold⟩
    · have hmem := mem_of_getLast? hnew
      rw [← hm] at hmem
      exact le_of_lt (mem_level.mp hmem).2
    · exact le_of_succ_le (hs.high q hold)
  · rw [length_cons, hs.length]
    omega
  · intro j hkj hj
    rcases eq_or_lt_of_le hkj with rfl | hlt
    · rw [Nat.sub_self, getElem?_cons_zero, level_append, getLast?_append, hm, hlast]
    · rw [show j - k = (j - (k + 1)) + 1 by omega, getElem?_cons_succ, hs.recorded j hlt hj,
        level_append, hnone j hlt hj, append_nil]
  · intro j q hkj hj hq
    rcases eq_or_lt_of_le hkj with rfl | hlt
    · rw [hb'] at hq
      have := head?_dropWhile_not s (level h k b)
      rw [hq] at this
      exact this
    · refine hs.ahead j q hlt hj ?_
      rw [hsplit, level_append, hnone j hlt hj]
      exact hq
  · intro _ q hq
    rw [hb'] at hq
    rw [hq]
    rfl
  intro q hq
  rcases or_eq_some_iff.mp hq with hhead | ⟨hnil, hrest⟩
  · have hmem : q ∈ level h k b' := by
      rw [hb']
      exact mem_of_mem_head? hhead
    have hqb := (mem_level.mp hmem).1
    refine ⟨?_, .inr hqb⟩
    rw [hs.split, hsplit]
    exact mem_append_right _ (mem_append_right _ hqb)
  have hall := dropWhile_eq_nil_iff.mp (head?_eq_none_iff.mp hnil)
  rcases or_eq_some_iff.mp hrest with hend | ⟨hempty, hold⟩
  · have hmem := mem_of_getLast? hend
    exact ⟨hsub q hmem, .inl (hall q hmem)⟩
  · rw [getLast?_eq_none_iff] at hempty
    rw [hempty] at hmlast
    have hmnil : m = [] := getLast?_eq_none_iff.mp hmlast
    rw [hsplit, hmnil] at hs
    exact hs.seen q hold

/-- **A SEARCH** cuts the list: the cut of every level is recorded, and the first node behind
    the cut, if there is one, is the last node read and is not small. -/
theorem search_spec (hl : ∀ k, k < size → Linked next k none (level h k l))
    (hheight : ∀ q ∈ l, 0 < h q ∧ h q ≤ size) (hsmall : ∀ q ∈ l, small q = some (s q))
    (hfuel : l.length < fuel) :
    ∃ update n2 a b, search next small fuel size none none [] = some (update, n2) ∧ l = a ++ b ∧
      update.length = size ∧
      (∀ k, k < size → update[k]? = some (level h k a).getLast?) ∧
      ((∃ q rest, b = q :: rest ∧ n2 = some q ∧ s q = false) ∨
        (b = [] ∧ ∀ q, n2 = some q → q ∈ l ∧ s q = true)) := by
  -- level by level, from the top down
  have hrun : ∀ k n1 n2 update a b, k ≤ size → Searching h s l size k n1 n2 update a b →
      ∃ n1' n2' update' a' b', search next small fuel k n1 n2 update = some (update', n2') ∧
        Searching h s l size 0 n1' n2' update' a' b' := by
    intro k
    induction k with
    | zero =>
      intro n1 n2 update a b _ hs
      exact ⟨n1, n2, update, a, b, rfl, hs⟩
    | succ k ih =>
      intro n1 n2 update a b hk hs
      obtain ⟨n1', n2', a', b', hwalk, hs'⟩ := hs.step hk (hl k hk) hsmall hfuel
      obtain ⟨n1'', n2'', update'', a'', b'', hsearch, hs''⟩ :=
        ih n1' n2' _ a' b' (le_of_lt hk) hs'
      refine ⟨n1'', n2'', update'', a'', b'', ?_, hs''⟩
      show (walkLevel next small k fuel n1 n2).bind _ = _
      rw [hwalk]
      exact hsearch
  have hstart : Searching h s l size size none none [] [] l :=
    { split := rfl, left := rfl, high := fun q hq => nomatch hq
      length := (Nat.sub_self size).symm
      recorded := fun j hj hlt => absurd hlt hj.not_gt
      ahead := fun j q hj hlt => absurd hlt hj.not_gt
      found := fun hlt => absurd hlt (lt_irrefl size)
      seen := fun q hq => nomatch hq }
  obtain ⟨n1, n2, update, a, b, hsearch, hs⟩ := hrun size none none [] [] l le_rfl hstart
  refine ⟨update, n2, a, b, hsearch, hs.split, hs.length,
    fun k hk => hs.recorded k (zero_le k) hk, ?_⟩
  -- what is ahead at level 0 is the node behind the split
  cases b with
  | nil =>
    refine .inr ⟨rfl, fun q hq => ?_⟩
    exact (hs.seen q hq).imp_right (fun hor => hor.resolve_right not_mem_nil)
  | cons q rest =>
    have hmem : q ∈ l := by
      rw [hs.split]
      exact mem_append_right _ mem_cons_self
    obtain ⟨hpos, hle⟩ := hheight q hmem
    have hsize : 0 < size := hpos.trans_le hle
    have hhead : (level h 0 (q :: rest)).head? = some q := by
      rw [level_cons_of_lt hpos]
      rfl
    exact .inl ⟨q, rest, rfl, hs.found hsize q hhead,
      hs.ahead 0 q le_rfl hsize hhead⟩

end SkipList
