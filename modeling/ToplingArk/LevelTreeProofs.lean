import Mathlib.Algebra.BigOperators.Group.Finset.Piecewise
import Mathlib.Algebra.BigOperators.Intervals
import Mathlib.Algebra.Order.BigOperators.Group.Finset
import Mathlib.Data.Nat.Find
import Mathlib.Order.Iterate
import ToplingArk.BitCountProofs

/-! # Ordered trees in level order

    A tree whose nodes are numbered level by level, from left to right, is given by the
    list of its degrees: the children of a node are the next nodes that no earlier node has
    taken.  Everything else is arithmetic on the number `first s` of the first child.

    Depth-first order is a different order on the same numbers.  On one level the two agree,
    so the nodes that come before a given one in depth-first order are, on every level, those
    below a number: the CUT of the node.  Counts along the depth-first order are sums of
    level-order counts, one for every level. -/

namespace LevelTree

open BitCount List Function Finset Nat

/-- The degrees of the nodes in level order.  Every node has been announced by an earlier one,
    and the last level announces nothing. -/
structure LTree where
  deg : List Nat
  ahead : ∀ s, s < deg.length → s < 1 + (deg.take s).sum
  whole : 1 + deg.sum = deg.length

variable (T : LTree) {a n : Nat}

/-- The number of nodes. -/
def LTree.size : Nat := T.deg.length

/-- The first child of a node, or where it would be. -/
def LTree.first (s : Nat) : Nat := 1 + (T.deg.take s).sum

/-- The node whose children the given one is among. -/
def LTree.parent (s : Nat) : Nat := findGreatest (fun p => T.first p ≤ s) s

/-- The ancestor so many levels up. -/
def LTree.up (s j : Nat) : Nat := T.parent^[j] s

/-- The first descendant so many levels down, or where it would be. -/
def LTree.down (s j : Nat) : Nat := T.first^[j] s

/-- The first node of a level. -/
def LTree.level (k : Nat) : Nat := T.down 0 k

/-- The node is on the level. -/
def LTree.At (k s : Nat) : Prop := T.level k ≤ s ∧ s < T.level (k + 1)

/-- The bound on level `k` of what comes before the node `s` of level `l`. -/
def LTree.cut (l s k : Nat) : Nat := if k < l then T.up s (l - k) + 1 else T.down s (k - l)

variable {T}

/-! ## First children -/

theorem first_zero : T.first 0 = 1 := rfl

/-- Later nodes have later children. -/
theorem first_mono : Monotone T.first := by
  refine monotone_nat_of_le_succ (fun s => ?_)
  have h : (T.deg.take s).sum ≤ (T.deg.take (s + 1)).sum := by
    rw [take_add, sum_append_nat]
    exact le_add_right _ _
  exact Nat.add_le_add_left h 1

/-- Behind the last node there are no more children. -/
theorem first_size : T.first T.size = T.size := by
  show 1 + (T.deg.take T.deg.length).sum = T.deg.length
  rw [take_length, T.whole]

variable {c j k l p s t x : Nat} {u v : List Nat}

theorem lt_first (hs : s < T.size) : s < T.first s := T.ahead s hs

/-- The children of a node stand together. -/
theorem first_succ {d : Nat} (h : T.deg[s]? = some d) : T.first (s + 1) = T.first s + d := by
  obtain ⟨hs, rfl⟩ := List.getElem_of_getElem? h
  show 1 + (T.deg.take (s + 1)).sum = 1 + (T.deg.take s).sum + _
  rw [take_add_one, getElem?_eq_getElem hs, sum_append_nat, ← add_assoc]
  simp

theorem first_le_size (hs : s ≤ T.size) : T.first s ≤ T.size :=
  (first_mono hs).trans first_size.le

/-- Only nodes have children. -/
theorem lt_size_of_child {c : Nat} (h1 : T.first s ≤ c) (h2 : c < T.first (s + 1)) :
    s < T.size := by
  by_contra hge
  have hend : ∀ k, T.size ≤ k → T.first k = T.size := by
    intro k hk
    show 1 + (T.deg.take k).sum = T.deg.length
    rw [take_of_length_le hk, T.whole]
  rw [hend s (by omega)] at h1
  rw [hend (s + 1) (by omega)] at h2
  omega

theorem size_pos : 0 < T.size := by
  have h := T.whole
  unfold LTree.size
  omega

/-! ## Parents -/

section Parent

variable {s : Nat}

/-- A node does not come before its parent's first child. -/
theorem first_parent_le (h0 : 0 < s) : T.first (T.parent s) ≤ s :=
  findGreatest_spec (P := fun p => T.first p ≤ s) (zero_le s) (by rw [first_zero]; omega)

/-- Nor behind its parent's last one. -/
theorem lt_first_parent_succ (hs : s < T.size) : s < T.first (T.parent s + 1) := by
  by_contra hle
  have hle' : T.first (T.parent s + 1) ≤ s := not_lt.mp hle
  have hbound : T.parent s + 1 ≤ s := by
    by_contra hgt
    have hself : T.parent s = s :=
      le_antisymm (findGreatest_le s) (by omega)
    have hself' := first_mono (T := T) (le_add_right s 1)
    have hahead := lt_first hs
    rw [hself] at hle'
    omega
  exact findGreatest_is_greatest (P := fun p => T.first p ≤ s) (lt_succ_self _) hbound hle'

/-- Parents and first children determine each other. -/
theorem parent_lt_iff (h0 : 0 < s) (hs : s < T.size) (y : Nat) :
    T.parent s < y ↔ s < T.first y := by
  constructor
  · intro h
    exact (lt_first_parent_succ hs).trans_le (first_mono h)
  · intro h
    by_contra hle
    have h1 := first_mono (T := T) (not_lt.mp hle)
    have h2 := first_parent_le (T := T) h0
    omega

theorem parent_lt_self (h0 : 0 < s) (hs : s < T.size) : T.parent s < s :=
  (parent_lt_iff h0 hs s).mpr (lt_first hs)

/-- The parent is the node with this child. -/
theorem parent_eq (hs : s < T.size) (h1 : T.first p ≤ s) (h2 : s < T.first (p + 1)) :
    T.parent s = p := by
  have h0 : 0 < s := by
    have := first_mono (T := T) (zero_le p)
    rw [first_zero] at this
    omega
  have hlt := (parent_lt_iff h0 hs (p + 1)).mpr h2
  have hge : ¬ T.parent s < p := fun h => by
    have := (parent_lt_iff h0 hs p).mp h
    omega
  omega

end Parent

/-! ## Levels -/

theorem down_zero (s : Nat) : T.down s 0 = s := rfl

/-- One layer further down, along the first children. -/
theorem down_succ (s j : Nat) : T.down s (j + 1) = T.first (T.down s j) :=
  iterate_succ_apply' _ _ _

theorem down_first (s j : Nat) : T.down (T.first s) j = T.down s (j + 1) :=
  (iterate_succ_apply _ _ _).symm

theorem down_mono (j : Nat) : Monotone (fun s => T.down s j) := first_mono.iterate j

/-- Going down twice. -/
theorem down_add (s i j : Nat) : T.down s (i + j) = T.down (T.down s i) j := by
  unfold LTree.down
  rw [add_comm, iterate_add_apply]

theorem up_zero (s : Nat) : T.up s 0 = s := rfl

/-- One layer further up. -/
theorem up_succ (s j : Nat) : T.up s (j + 1) = T.up (T.parent s) j :=
  iterate_succ_apply _ _ _

/-- Going up twice. -/
theorem up_add (s i j : Nat) : T.up s (i + j) = T.up (T.up s i) j := by
  unfold LTree.up
  rw [add_comm, iterate_add_apply]

theorem level_zero : T.level 0 = 0 := rfl

/-- The next layer begins with the first child of this one's first node. -/
theorem level_succ (k : Nat) : T.level (k + 1) = T.first (T.level k) := down_succ 0 k

theorem level_one : T.level 1 = 1 := rfl

theorem level_add (k j : Nat) : T.level (k + j) = T.down (T.level k) j := down_add 0 k j

/-- Going down never leaves the array. -/
theorem down_le_size (hs : s ≤ T.size) (j : Nat) : T.down s j ≤ T.size := by
  induction j with
  | zero => exact hs
  | succ j ih =>
    rw [down_succ]
    exact first_le_size ih

theorem level_le_size (k : Nat) : T.level k ≤ T.size := down_le_size (zero_le _) k

/-- A layer that exists is not empty. -/
theorem level_lt_succ (h : T.level k < T.size) : T.level k < T.level (k + 1) := by
  rw [level_succ]
  exact lt_first h

theorem level_le_succ (k : Nat) : T.level k ≤ T.level (k + 1) := by
  by_cases h : T.level k < T.size
  · exact (level_lt_succ h).le
  · have h1 := level_le_size (T := T) k
    have h2 : T.level k = T.size := by omega
    rw [level_succ, h2, first_size]

theorem level_mono : Monotone T.level := monotone_nat_of_le_succ level_le_succ

/-- Layer `k` begins at node `k` at the earliest. -/
theorem min_le_level (k : Nat) : min k T.size ≤ T.level k := by
  induction k with
  | zero => simp
  | succ k ih =>
    by_cases h : T.level k < T.size
    · have := level_lt_succ h
      omega
    · have := level_le_succ (T := T) k
      omega

/-- The layers come to an end. -/
theorem exists_level_eq_size : ∃ k, T.level k = T.size :=
  ⟨T.size, le_antisymm (level_le_size _) (by simpa using min_le_level (T := T) T.size)⟩

/-- The number of levels. -/
def LTree.height (T : LTree) : Nat := Nat.find (exists_level_eq_size (T := T))

/-- Behind the last layer there are no nodes. -/
theorem level_height : T.level T.height = T.size := Nat.find_spec exists_level_eq_size

theorem level_lt_size (h : k < T.height) : T.level k < T.size :=
  lt_of_le_of_ne (level_le_size k) (Nat.find_min exists_level_eq_size h)

theorem level_eq_size (h : T.height ≤ k) : T.level k = T.size :=
  le_antisymm (level_le_size k) (level_height.symm.le.trans (level_mono h))

/-- The first layer that is empty is the height. -/
theorem height_le (h : T.level k = T.size) : T.height ≤ k :=
  Nat.find_min' exists_level_eq_size h

theorem height_pos : 0 < T.height := by
  by_contra h
  have h0 : T.height = 0 := by omega
  have h1 := level_height (T := T)
  rw [h0] at h1
  exact absurd h1.symm size_pos.ne'

theorem height_le_size : T.height ≤ T.size := by
  by_contra h
  have h1 := level_lt_size (T := T) (not_le.mp h)
  have h2 := min_le_level (T := T) T.size
  omega

theorem LTree.At.lt_size (h : T.At k s) : s < T.size :=
  h.2.trans_le (level_le_size _)

/-- A node's layer is below the height. -/
theorem LTree.At.lt_height (h : T.At k s) : k < T.height := by
  by_contra hk
  have h1 := level_eq_size (T := T) (not_lt.mp hk)
  have h2 := h.1
  have h3 := h.lt_size
  omega

theorem LTree.At.pos (h : T.At (k + 1) s) : 0 < s := by
  have h1 := level_mono (T := T) (le_add_left 1 k)
  have h2 := h.1
  rw [level_one] at h1
  omega

theorem at_zero : T.At 0 0 := ⟨le_refl 0, by rw [zero_add, level_one]; omega⟩

theorem LTree.At.eq_zero (h : T.At 0 s) : s = 0 := by
  have h1 := h.2
  rw [level_one] at h1
  omega

/-- Every node has a layer. -/
theorem exists_at (hs : s < T.size) : ∃ k, T.At k s := by
  have hex : ∃ k, s < T.level k := ⟨T.height, by rwa [level_height]⟩
  have hfind := Nat.find_spec hex
  cases hk : Nat.find hex with
  | zero =>
    rw [hk] at hfind
    cases hfind
  | succ k =>
    rw [hk] at hfind
    have hmin : ¬ s < T.level k := Nat.find_min hex (by rw [hk]; omega)
    exact ⟨k, not_lt.mp hmin, hfind⟩

/-- Every node has one layer. -/
theorem LTree.At.unique (hk : T.At k s) (hl : T.At l s) : k = l := by
  have key : ∀ {k l : Nat}, T.At k s → T.At l s → ¬ k < l := by
    intro k l hk hl hlt
    have := level_mono (T := T) (succ_le_of_lt hlt)
    have := hk.2
    have := hl.1
    rw [succ_eq_add_one] at *
    omega
  have h1 := key hk hl
  have h2 := key hl hk
  omega

/-- The parent is one layer up. -/
theorem LTree.At.parent (h : T.At (k + 1) s) : T.At k (T.parent s) := by
  have hiff := parent_lt_iff h.pos h.lt_size
  constructor
  · by_contra hlt
    have h1 := (hiff _).mp (not_le.mp hlt)
    have h2 := h.1
    rw [level_succ] at h2
    omega
  · rw [hiff, ← level_succ]
    exact h.2

/-- The ancestor `j` layers up. -/
theorem LTree.At.up (h : T.At (k + j) s) : T.At k (T.up s j) := by
  induction j generalizing s with
  | zero => exact h
  | succ j ih =>
    exact ih h.parent

/-- Ancestors and first descendants determine each other. -/
theorem LTree.At.up_lt_iff (h : T.At (k + j) s) (y : Nat) : T.up s j < y ↔ s < T.down y j := by
  induction j generalizing s with
  | zero => exact Iff.rfl
  | succ j ih =>
    rw [up_succ, ih h.parent, down_succ]
    exact parent_lt_iff h.pos h.lt_size _

/-- Going up and going down are adjoint. -/
theorem LTree.At.le_up_iff (h : T.At (k + j) s) (y : Nat) : y ≤ T.up s j ↔ T.down y j ≤ s := by
  rw [← not_lt, h.up_lt_iff, not_lt]

theorem LTree.At.up_mono (hs : T.At (k + j) s) (ht : T.At (k + j) t) (h : s ≤ t) :
    T.up s j ≤ T.up t j := by
  rw [ht.le_up_iff]
  exact ((hs.le_up_iff _).mp le_rfl).trans h

/-- A child is one layer down. -/
theorem LTree.At.child (h : T.At k s) (h1 : T.first s ≤ c) (h2 : c < T.first (s + 1)) :
    T.At (k + 1) c := by
  constructor
  · rw [level_succ]
    exact (first_mono h.1).trans h1
  · rw [level_succ]
    exact h2.trans_le (first_mono h.2)

/-- The parent of a child. -/
theorem LTree.At.parent_child (h : T.At k s) (h1 : T.first s ≤ c) (h2 : c < T.first (s + 1)) :
    T.parent c = s :=
  parent_eq (h.child h1 h2).lt_size h1 h2

/-! ## Widths -/

/-- A level that is not empty begins with one of its nodes. -/
theorem at_level (h : T.level k < T.size) : T.At k (T.level k) :=
  ⟨le_rfl, level_lt_succ h⟩

/-- Nodes that are no leaves have as many children. -/
theorem first_add_le {b : Nat} (hab : a ≤ b)
    (h : ∀ s, a ≤ s → s < b → T.first s < T.first (s + 1)) : T.first a + (b - a) ≤ T.first b := by
  induction b, hab using le_induction with
  | base => rw [Nat.sub_self, add_zero]
  | succ b hab ih =>
    have hstep := h b hab (lt_succ_self b)
    have hrest := ih (fun s h1 h2 => h s h1 (by omega))
    omega

/-- A level on which only the first node may be a leaf loses at most one node. -/
theorem width_le_succ (hk : T.level k < T.size)
    (hinner : ∀ s, T.At k s → s ≠ T.level k → T.first s < T.first (s + 1)) :
    T.level (k + 1) - T.level k ≤ T.level (k + 1 + 1) - T.level (k + 1) + 1 := by
  have hlt : T.level k + 1 ≤ T.level (k + 1) := level_lt_succ hk
  have hkids := first_add_le (T := T) hlt (fun s h1 h2 =>
    hinner s ⟨by omega, h2⟩ (by omega))
  have hmono := first_mono (T := T) (le_add_right (T.level k) 1)
  have h1 := level_succ (T := T) k
  have h2 := level_succ (T := T) (k + 1)
  omega

/-- A level loses at most two nodes if one more may be a leaf. -/
theorem width_le_succ_succ (hk : T.level k < T.size)
    (hinner : ∀ s, T.At k s → s ≠ T.level k → s ≠ p → T.first s < T.first (s + 1)) :
    T.level (k + 1) - T.level k ≤ T.level (k + 1 + 1) - T.level (k + 1) + 2 := by
  by_cases hp : T.At k p ∧ p ≠ T.level k
  · obtain ⟨⟨h1, h2⟩, hne⟩ := hp
    have hleft := first_add_le (T := T) (show T.level k + 1 ≤ p by omega) (fun s h3 h4 =>
      hinner s ⟨by omega, by omega⟩ (by omega) (by omega))
    have hright := first_add_le (T := T) (show p + 1 ≤ T.level (k + 1) from h2) (fun s h3 h4 =>
      hinner s ⟨by omega, h4⟩ (by omega) (by omega))
    have hmono := first_mono (T := T) (le_add_right (T.level k) 1)
    have hmono' := first_mono (T := T) (le_add_right p 1)
    have h3 := level_succ (T := T) k
    have h4 := level_succ (T := T) (k + 1)
    omega
  · have := width_le_succ hk (fun s hs hne =>
      hinner s hs hne (fun he => hp ⟨he ▸ hs, he ▸ hne⟩))
    omega

/-- **STAIRCASE**: if only one leaf of a wide level and the first node of every level may be
    leaves, then the levels below the wide one narrow down one by one. -/
theorem staircase (hp : T.At j p) (hwide : n + 1 ≤ T.level (j + 1) - T.level j)
    (hinner : ∀ k s, T.At k s → s ≠ T.level k → s ≠ p → T.first s < T.first (s + 1)) :
    2 * (n + 1) + n * (n - 1) ≤ 2 * T.size := by
  have hj : T.level j < T.size := by
    have := hp.1
    have := hp.lt_size
    omega
  -- the width of each level below, as long as there is one
  have hwidth : ∀ i, n ≤ T.level (j + 1 + i + 1) - T.level (j + 1 + i) + (i + 1) := by
    intro i
    induction i with
    | zero =>
      have := width_le_succ_succ hj (hinner j)
      show n ≤ T.level (j + 1 + 1) - T.level (j + 1) + 1
      omega
    | succ i ih =>
      by_cases hi : T.level (j + 1 + i) < T.size
      · have hstep := width_le_succ hi (fun s hs hne => hinner _ s hs hne (fun he => by
          have := (he ▸ hs : T.At (j + 1 + i) p).unique hp
          omega))
        rw [show j + 1 + (i + 1) = j + 1 + i + 1 by omega]
        omega
      · have h1 := level_le_size (T := T) (j + 1 + i + 1)
        omega
  have hsum : ∀ m, m ≤ n → n + 1 + ∑ i ∈ range m, (n - 1 - i) ≤ T.level (j + 1 + m) := by
    intro m
    induction m with
    | zero =>
      intro _
      show n + 1 + 0 ≤ T.level (j + 1)
      omega
    | succ m ih =>
      intro hm
      have hprev := ih (by omega)
      have hstep := hwidth m
      have hle := level_le_succ (T := T) (j + 1 + m)
      rw [Finset.sum_range_succ, show j + 1 + (m + 1) = j + 1 + m + 1 by omega]
      omega
  have htotal := (hsum n le_rfl).trans (level_le_size _)
  rw [sum_range_reflect (fun i => i)] at htotal
  have hgauss := sum_range_id_mul_two n
  omega

/-! ## Cuts -/

/-- Above a node its own ancestors are counted. -/
theorem cut_above (s : Nat) (h : k < l) : T.cut l s k = T.up s (l - k) + 1 := if_pos h

/-- Below a node its descendants are not. -/
theorem cut_below (s : Nat) (h : l ≤ k) : T.cut l s k = T.down s (k - l) :=
  if_neg h.not_gt

theorem cut_self (l s : Nat) : T.cut l s l = s := by
  rw [cut_below s le_rfl, Nat.sub_self, down_zero]

theorem cut_root (k : Nat) : T.cut 0 0 k = T.level k := cut_below 0 (zero_le k)

/-- **CUTS ARE NESTED**: what comes before a node that comes before `p` comes before `p`. -/
theorem cut_le (hx : T.At t x) (hp : T.At l p) (h : x < T.cut l p t) (k : Nat) :
    T.cut t x k ≤ T.cut l p k := by
  by_cases htl : t < l
  · -- `x` is no later than the ancestor of `p` on its level
    obtain ⟨d, rfl⟩ := Nat.exists_eq_add_of_lt htl
    rw [add_assoc] at *
    have hle : x ≤ T.up p (d + 1) := by
      rw [cut_above p (by omega), Nat.add_sub_cancel_left] at h
      omega
    have hdown : T.down x (d + 1) ≤ p := (hp.le_up_iff x).mp hle
    by_cases hkt : k < t
    · obtain ⟨e, rfl⟩ := Nat.exists_eq_add_of_lt hkt
      rw [cut_above x hkt, cut_above p (by omega), show k + e + 1 - k = e + 1 by omega,
        show k + e + 1 + (d + 1) - k = (d + 1) + (e + 1) by omega, up_add p (d + 1) (e + 1)]
      have hx' : T.At (k + (e + 1)) x := by rwa [← add_assoc]
      have hp' : T.At (k + (e + 1)) (T.up p (d + 1)) := by
        have := hp.up
        rwa [← add_assoc]
      exact succ_le_succ (hx'.up_mono hp' hle)
    obtain ⟨e, rfl⟩ := exists_add_of_le (not_lt.mp hkt)
    rw [cut_below x (le_add_right t e), Nat.add_sub_cancel_left]
    by_cases hed : e ≤ d
    · rw [cut_above p (by omega)]
      obtain ⟨g, rfl⟩ := exists_add_of_le hed
      have hmid : T.At (t + e) (T.up p (g + 1)) := by
        have hp' : T.At (t + e + (g + 1)) p := by
          rwa [show t + e + (g + 1) = t + (e + g + 1) by omega]
        exact hp'.up
      have hup : x ≤ T.up (T.up p (g + 1)) e := by
        rw [← up_add, show g + 1 + e = e + g + 1 by omega]
        exact hle
      rw [show t + (e + g + 1) - (t + e) = g + 1 by omega]
      exact ((hmid.le_up_iff x).mp hup).trans (le_succ _)
    · obtain ⟨g, rfl⟩ := Nat.exists_eq_add_of_lt (not_le.mp hed)
      rw [cut_below p (by omega), show t + (d + g + 1) - (t + (d + 1)) = g by omega,
        show d + g + 1 = d + 1 + g by omega, down_add]
      exact down_mono g hdown
  -- the ancestor of `x` on the level of `p` is to the left of `p`
  obtain ⟨d, rfl⟩ := exists_add_of_le (not_lt.mp htl)
  rw [cut_below p (le_add_right l d), Nat.add_sub_cancel_left] at h
  have hlt : T.up x d < p := (hx.up_lt_iff p).mpr h
  by_cases hkl : k < l
  · obtain ⟨e, rfl⟩ := Nat.exists_eq_add_of_lt hkl
    rw [cut_above x (by omega), cut_above p hkl, show k + e + 1 - k = e + 1 by omega,
      show k + e + 1 + d - k = d + (e + 1) by omega, up_add x d (e + 1)]
    have hx' : T.At (k + (e + 1)) (T.up x d) := by
      have := hx.up
      rwa [← add_assoc]
    have hp' : T.At (k + (e + 1)) p := by rwa [← add_assoc]
    exact succ_le_succ (hx'.up_mono hp' hlt.le)
  obtain ⟨e, rfl⟩ := exists_add_of_le (not_lt.mp hkl)
  rw [cut_below p (le_add_right l e), Nat.add_sub_cancel_left]
  by_cases hed : e < d
  · obtain ⟨g, rfl⟩ := Nat.exists_eq_add_of_lt hed
    rw [cut_above x (by omega), show l + (e + g + 1) - (l + e) = g + 1 by omega]
    have hmid : T.At (l + e) (T.up x (g + 1)) := by
      have hx' : T.At (l + e + (g + 1)) x := by
        rwa [show l + e + (g + 1) = l + (e + g + 1) by omega]
      exact hx'.up
    refine (hmid.up_lt_iff p).mp ?_
    rw [← up_add, show g + 1 + e = e + g + 1 by omega]
    exact hlt
  · obtain ⟨g, rfl⟩ := exists_add_of_le (not_lt.mp hed)
    rw [cut_below x (by omega), show l + (d + g) - (l + d) = g by omega, down_add]
    exact down_mono g h.le

/-- Of two nodes one comes before the other, or they are the same. -/
theorem cut_total (hx : T.At t x) (hp : T.At l p) (h : ¬ x < T.cut l p t) :
    (t = l ∧ x = p) ∨ p < T.cut t x l := by
  by_cases htl : t < l
  · obtain ⟨d, rfl⟩ := Nat.exists_eq_add_of_lt htl
    rw [add_assoc] at *
    rw [cut_above p (by omega), Nat.add_sub_cancel_left] at h
    rw [cut_below x (le_add_right _ _), Nat.add_sub_cancel_left, ← hp.up_lt_iff]
    omega
  obtain ⟨d, rfl⟩ := exists_add_of_le (not_lt.mp htl)
  rw [cut_below p (le_add_right l d), Nat.add_sub_cancel_left, not_lt, ← hx.le_up_iff] at h
  cases d with
  | zero =>
    rcases eq_or_lt_of_le h with heq | hlt
    · exact .inl ⟨rfl, heq.symm⟩
    · right
      rw [add_zero, cut_self]
      exact hlt
  | succ d =>
    rw [cut_above x (by omega), Nat.add_sub_cancel_left]
    omega

/-- A node that does not come before `p` has a cut that is no smaller. -/
theorem le_cut (hx : T.At t x) (hp : T.At l p) (h : T.cut l p t ≤ x) (k : Nat) :
    T.cut l p k ≤ T.cut t x k := by
  rcases cut_total hx hp h.not_gt with ⟨rfl, rfl⟩ | hlt
  · exact le_rfl
  · exact cut_le hp hx hlt k

/-- A cut stays within the levels. -/
theorem level_le_cut (h : T.At l s) (k : Nat) : T.level k ≤ T.cut l s k := by
  rw [← cut_root]
  by_cases h0 : 0 < T.cut l s 0
  · exact cut_le at_zero h h0 k
  · cases l with
    | zero => rw [h.eq_zero]
    | succ l =>
      rw [cut_above s (succ_pos l)] at h0
      omega

/-- No cut goes beyond its layer. -/
theorem cut_le_level (h : T.At l s) (k : Nat) : T.cut l s k ≤ T.level (k + 1) := by
  by_cases hk : k < l
  · rw [cut_above s hk]
    have hup : T.At k (T.up s (l - k)) := by
      refine LTree.At.up ?_
      rwa [Nat.add_sub_cancel' hk.le]
    exact hup.2
  · obtain ⟨e, rfl⟩ := exists_add_of_le (not_lt.mp hk)
    rw [cut_below s (le_add_right l e), Nat.add_sub_cancel_left,
      show l + e + 1 = (l + 1) + e by omega, level_add]
    exact down_mono e h.2.le

/-! ## Depth-first order -/

/-- The nodes of a subtree in depth-first order, so many levels of it. -/
def LTree.visit (T : LTree) : Nat → Nat → List Nat
  | 0, _ => []
  | j + 1, s =>
    s :: (range' (T.first s) (T.first (s + 1) - T.first s)).flatMap (T.visit j)

/-- All nodes in depth-first order. -/
def LTree.dfs (T : LTree) : List Nat := T.visit T.height 0

/-- The ones before the first descendants, added up over so many levels. -/
def LTree.mass (T : LTree) (f : Nat → Bool) (s j : Nat) : Nat :=
  ∑ i ∈ range j, ones f (T.down s i)

/-- The ones before a cut, added up over all levels. -/
def LTree.total (T : LTree) (f : Nat → Bool) (l s : Nat) : Nat :=
  ∑ i ∈ range T.height, ones f (T.cut l s i)

/-- The number of nodes with the bit that come before a node of level `l`. -/
def LTree.dfsRank (T : LTree) (f : Nat → Bool) (l s : Nat) : Nat := T.total f l s - T.total f 0 0

variable (f : Nat → Bool)

/-- The ones below, layer by layer. -/
theorem mass_succ (s j : Nat) : T.mass f s (j + 1) = ones f s + T.mass f (T.first s) j := by
  unfold LTree.mass
  rw [Finset.sum_range_succ', add_comm]
  refine congrArg₂ _ rfl (sum_congr rfl (fun i _ => ?_))
  rw [down_first]

/-- The ones of the subtrees of consecutive nodes. -/
theorem countP_flatMap_visit
    (hvisit : ∀ s, (T.visit j s).countP f + T.mass f s j = T.mass f (s + 1) j) (a n : Nat) :
    ((range' a n).flatMap (T.visit j)).countP f + T.mass f a j = T.mass f (a + n) j := by
  induction n with
  | zero => simp
  | succ n ih =>
    rw [range'_concat, flatMap_append, countP_append, one_mul]
    have h := hvisit (a + n)
    simp only [flatMap_cons, flatMap_nil, append_nil]
    rw [← add_assoc a n 1]
    omega

/-- **THE ONES OF A SUBTREE**, level by level. -/
theorem countP_visit (j s : Nat) :
    (T.visit j s).countP f + T.mass f s j = T.mass f (s + 1) j := by
  induction j generalizing s with
  | zero => rfl
  | succ j ih =>
    have hle := first_mono (T := T) (le_add_right s 1)
    have hkids := countP_flatMap_visit f ih (T.first s) (T.first (s + 1) - T.first s)
    rw [Nat.add_sub_cancel' hle] at hkids
    rw [LTree.visit, countP_cons, mass_succ, mass_succ, ones_succ]
    omega

/-- The total of a node: the levels above it, and those from it on. -/
theorem total_eq (hl : l ≤ T.height) :
    T.total f l s = (∑ i ∈ range l, ones f (T.up s (l - i) + 1)) +
      T.mass f s (T.height - l) := by
  unfold LTree.total LTree.mass
  conv_lhs => rw [← Nat.add_sub_cancel' hl]
  rw [sum_range_add]
  congr 1
  · refine sum_congr rfl (fun i hi => ?_)
    rw [cut_above s (Finset.mem_range.mp hi)]
  · refine sum_congr rfl (fun i _ => ?_)
    rw [cut_below s (le_add_right l i), Nat.add_sub_cancel_left]

/-- The total on the way through a node of level `l`: the nodes up to it, and from its children on
    what comes before `c`. -/
def LTree.through (T : LTree) (f : Nat → Bool) (l s c : Nat) : Nat :=
  (∑ i ∈ range (l + 1), ones f (T.up s (l - i) + 1)) + T.mass f c (T.height - (l + 1))

/-- The total behind the subtree of a node of level `l`. -/
def LTree.after (T : LTree) (f : Nat → Bool) (l s : Nat) : Nat :=
  T.total f l s + (T.visit (T.height - l) s).countP f

/-- Before the first child only the node itself is added. -/
theorem through_first (h : T.At l s) :
    T.through f l s (T.first s) = T.total f l s + (if f s then 1 else 0) := by
  have hlt := h.lt_height
  unfold LTree.through
  rw [total_eq f hlt.le, Finset.sum_range_succ, Nat.sub_self, up_zero, ones_succ,
    show T.height - l = (T.height - (l + 1)) + 1 by omega, mass_succ]
  omega

/-- Before a child all is counted that comes before it. -/
theorem through_child (h : T.At l s) (h1 : T.first s ≤ c) (h2 : c < T.first (s + 1)) :
    T.through f l s c = T.total f (l + 1) c := by
  rw [total_eq f (h.child h1 h2).lt_height.le]
  refine congrArg₂ _ (sum_congr rfl (fun i hi => ?_)) rfl
  have hlt := Finset.mem_range.mp hi
  rw [show l + 1 - i = (l - i) + 1 by omega, up_succ, h.parent_child h1 h2]

/-- Going through `n` more children. -/
theorem through_add (l s c n : Nat) :
    T.through f l s (c + n) =
      T.through f l s c +
        ((range' c n).flatMap (T.visit (T.height - (l + 1)))).countP f := by
  have hkids := countP_flatMap_visit f (countP_visit f (T := T) (T.height - (l + 1))) c n
  unfold LTree.through
  omega

/-- Behind the last child the subtree is counted. -/
theorem through_last (h : T.At l s) : T.through f l s (T.first (s + 1)) = T.after f l s := by
  have hlt := h.lt_height
  have hle := first_mono (T := T) (le_add_right s 1)
  have hadd := through_add (T := T) f l s (T.first s) (T.first (s + 1) - T.first s)
  rw [Nat.add_sub_cancel' hle, through_first f h] at hadd
  unfold LTree.after
  rw [show T.height - l = (T.height - (l + 1)) + 1 by omega, LTree.visit, countP_cons]
  omega

/-- Behind a child's subtree. -/
theorem after_child (h : T.At l s) (h1 : T.first s ≤ c) (h2 : c < T.first (s + 1)) :
    T.after f (l + 1) c = T.through f l s (c + 1) := by
  rw [through_add, through_child f h h1 h2]
  unfold LTree.after
  simp [range'_succ]

/-- A leaf is its whole subtree. -/
theorem after_leaf (h : T.At l s) (hleaf : T.first (s + 1) = T.first s) :
    T.after f l s = T.total f l s + (if f s then 1 else 0) := by
  rw [← through_last f h, hleaf, through_first f h]

/-- What is passed on the way comes before every later node of the next level. -/
theorem through_le (h : T.At l s) (hc : T.At (l + 1) c) (h1 : T.first s ≤ c) :
    T.through f l s c ≤ T.total f (l + 1) c := by
  have hp : s ≤ T.parent c := by
    by_contra hlt
    have := (parent_lt_iff hc.pos hc.lt_size s).mp (not_le.mp hlt)
    omega
  rw [total_eq f hc.lt_height.le]
  refine Nat.add_le_add_right (Finset.sum_le_sum (fun i hi => ?_)) _
  have hlt := Finset.mem_range.mp hi
  have hs' : T.At (i + (l - i)) s := by rwa [Nat.add_sub_cancel' (by omega)]
  have hc' : T.At (i + (l - i)) (T.parent c) := by
    rw [Nat.add_sub_cancel' (by omega)]
    exact hc.parent
  rw [show l + 1 - i = (l - i) + 1 by omega]
  exact ones_mono f (succ_le_succ (hs'.up_mono hc' hp))

theorem after_root : T.after f 0 0 = T.total f 0 0 + T.dfs.countP f := rfl

/-- A part of a concatenation: some of the lists, and a part of one. -/
theorem flatMap_range'_split {α : Type} (g : Nat → List α) {u v : List α} {x : α}
    (h : (range' a n).flatMap g = u ++ x :: v) :
    ∃ i u' v', i < n ∧ g (a + i) = u' ++ x :: v' ∧
      u = (range' a i).flatMap g ++ u' := by
  induction n generalizing a u with
  | zero => cases u <;> simp at h
  | succ n ih =>
    rcases append_eq_append_iff.mp h with ⟨w, hu, hrest⟩ | ⟨w, hg, hrest⟩
    · obtain ⟨i, u', v', hi, hsplit, rfl⟩ := ih hrest
      refine ⟨i + 1, u', v', by omega, by rw [← hsplit]; congr 1; omega, ?_⟩
      rw [hu, range'_succ, flatMap_cons, append_assoc]
    cases w with
    | nil =>
      rw [append_nil] at hg
      obtain ⟨i, u', v', hi, hsplit, hnil⟩ := ih (u := []) hrest.symm
      refine ⟨i + 1, u', v', by omega, by rw [← hsplit]; congr 1; omega, ?_⟩
      rw [range'_succ, flatMap_cons, append_assoc, ← hnil, hg, append_nil]
    | cons y w =>
      obtain ⟨rfl, -⟩ := hrest
      exact ⟨0, u, w, by omega, hg, rfl⟩

/-- **WHAT COMES BEFORE A NODE** in the depth-first order of a subtree is the difference of the
    totals. -/
theorem visit_split (hl : T.At l s) (hj : j = T.height - l) (h : T.visit j s = u ++ t :: v) :
    ∃ k, T.At k t ∧ T.total f k t = T.total f l s + u.countP f := by
  induction j generalizing l s u v t with
  | zero => cases u <;> simp [LTree.visit] at h
  | succ j ih =>
    rw [LTree.visit] at h
    cases u with
    | nil =>
      obtain ⟨rfl, -⟩ := cons.inj h
      exact ⟨l, hl, rfl⟩
    | cons y u =>
      rw [cons_append, cons.injEq] at h
      obtain ⟨rfl, h⟩ := h
      -- the child under which the node is found
      obtain ⟨i, u', v', hi, hsplit, rfl⟩ := flatMap_range'_split _ h
      have h1 := le_add_right (T.first s) i
      have h2 : T.first s + i < T.first (s + 1) := by omega
      obtain ⟨k, hk, htotal⟩ := ih (hl.child h1 h2) (by omega) hsplit
      refine ⟨k, hk, ?_⟩
      have hchild := through_add (T := T) f l s (T.first s) i
      rw [through_child f hl h1 h2, through_first f hl,
        show T.height - (l + 1) = j by omega] at hchild
      rw [countP_cons, countP_append]
      omega

/-- The root comes first. -/
theorem total_zero_le (h : T.At l s) : T.total f 0 0 ≤ T.total f l s := by
  refine Finset.sum_le_sum (fun i _ => ?_)
  exact ones_mono f (level_le_cut h i)

/-- **THE RANK OF A NODE IS ITS PLACE IN DEPTH-FIRST ORDER.** -/
theorem dfsRank_eq (ht : T.At l t) (h : T.dfs = u ++ t :: v) : T.dfsRank f l t = u.countP f := by
  obtain ⟨k, hk, htotal⟩ := visit_split f at_zero rfl h
  rw [LTree.dfsRank, ht.unique hk, htotal, Nat.add_sub_cancel_left]

/-! ## Comparing places -/

theorem dfsRank_root : T.dfsRank f 0 0 = 0 := Nat.sub_self _

/-- Smaller cuts have smaller ranks. -/
theorem dfsRank_le (h : ∀ k, T.cut t x k ≤ T.cut l p k) : T.dfsRank f t x ≤ T.dfsRank f l p :=
  Nat.sub_le_sub_right (Finset.sum_le_sum (fun k _ => ones_mono f (h k))) _

/-- A node with the bit raises the rank of what comes after it. -/
theorem dfsRank_lt (hx : T.At t x) (hp : T.At l p) (h : x < T.cut l p t) (hf : f x = true) :
    T.dfsRank f t x < T.dfsRank f l p := by
  have hbase := total_zero_le f hx
  have hlt : T.total f t x < T.total f l p := by
    refine sum_lt_sum (fun k _ => ones_mono f (cut_le hx hp h k))
      ⟨t, Finset.mem_range.mpr hx.lt_height, ?_⟩
    have hsucc := ones_succ f x
    rw [hf, if_pos rfl] at hsucc
    have hmono := ones_mono f (succ_le_of_lt h)
    rw [cut_self]
    rw [succ_eq_add_one] at hmono
    omega
  unfold LTree.dfsRank
  omega

/-- Two nodes with the bit at the same place are the same. -/
theorem eq_of_dfsRank_eq (hx : T.At t x) (hp : T.At l p) (hfx : f x = true) (hfp : f p = true)
    (h : T.dfsRank f t x = T.dfsRank f l p) : x = p := by
  by_cases hlt : x < T.cut l p t
  · have := dfsRank_lt f hx hp hlt hfx
    omega
  · rcases cut_total hx hp hlt with ⟨-, heq⟩ | hlt'
    · exact heq
    · have := dfsRank_lt f hp hx hlt' hfp
      omega

theorem ones_beq (t n : Nat) : ones (fun x => x == t) n = if t < n then 1 else 0 := by
  induction n with
  | zero => rfl
  | succ n ih =>
    rw [ones_succ, ih]
    rcases lt_trichotomy n t with hlt | rfl | hgt
    · rw [if_neg (by omega), if_neg (by simp; omega), if_neg (by omega)]
    · simp
    · rw [if_pos hgt, if_neg (by simp; omega), if_pos (by omega)]

/-- The walk visits every node once. -/
theorem count_dfs (ht : t < T.size) : T.dfs.count t = 1 := by
  obtain ⟨k, hk⟩ := exists_at ht
  -- the level of the node is the only one on which its bit is counted
  have hterm : ∀ i, ones (fun x => x == t) (T.down (0 + 1) i) =
      ones (fun x => x == t) (T.down 0 i) + (if i = k then 1 else 0) := by
    intro i
    have hnext : T.down (0 + 1) i = T.level (i + 1) := by
      rw [add_comm i 1, level_add]
      rfl
    rw [hnext, ones_beq, ones_beq]
    show _ = (if t < T.level i then 1 else 0) + _
    have hle := level_le_succ (T := T) i
    by_cases hik : i = k
    · subst hik
      rw [if_pos hk.2, if_neg hk.1.not_gt, if_pos rfl]
    · rw [if_neg hik]
      by_cases hlt : t < T.level i
      · rw [if_pos hlt, if_pos (by omega)]
      · have hnot : ¬ t < T.level (i + 1) := fun h =>
          hik (LTree.At.unique ⟨not_lt.mp hlt, h⟩ hk)
        rw [if_neg hlt, if_neg hnot]
  have hsum : T.mass (fun x => x == t) (0 + 1) T.height =
      T.mass (fun x => x == t) 0 T.height + 1 := by
    unfold LTree.mass
    rw [sum_congr rfl (fun i _ => hterm i), sum_add_distrib,
      sum_ite_eq', if_pos (Finset.mem_range.mpr hk.lt_height)]
  have hvisit := countP_visit (T := T) (fun x => x == t) T.height 0
  show (T.visit T.height 0).countP _ = 1
  omega

/-- The walk visits every node. -/
theorem mem_dfs (ht : t < T.size) : t ∈ T.dfs :=
  count_pos_iff.mp (by rw [count_dfs ht]; exact one_pos)

/-- Ranks are below the length of the walk. -/
theorem dfsRank_lt_length (h : T.At l s) : T.dfsRank f l s < T.dfs.length := by
  obtain ⟨u, v, hsplit⟩ := append_of_mem (mem_dfs h.lt_size)
  have hle := countP_le_length (p := f) (l := u)
  rw [dfsRank_eq f h hsplit, hsplit, length_append, length_cons]
  omega

theorem exists_at_of_split (h : T.dfs = u ++ t :: v) : ∃ k, T.At k t := by
  obtain ⟨k, hk, -⟩ := visit_split (fun _ => false) at_zero rfl h
  exact ⟨k, hk⟩

/-- The walk visits no more than the nodes. -/
theorem length_dfs_le : T.dfs.length ≤ T.size := by
  have hmem : ∀ t ∈ T.dfs, t < T.size := by
    intro t ht
    obtain ⟨u, v, hsplit⟩ := append_of_mem ht
    obtain ⟨k, hk⟩ := exists_at_of_split hsplit
    exact hk.lt_size
  have hnodup : T.dfs.Nodup := by
    rw [nodup_iff_count_le_one]
    intro t
    by_cases ht : t ∈ T.dfs
    · exact (count_dfs (hmem t ht)).le
    · rw [count_eq_zero_of_not_mem ht]
      exact zero_le 1
  have hsub := (hnodup.subperm (fun t ht => List.mem_range.mpr (hmem t ht))).length_le
  rwa [length_range] at hsub

/-- The number of nodes with the bit before a node in depth-first order. -/
def LTree.before (T : LTree) (f : Nat → Bool) (s : Nat) : Nat :=
  (T.dfs.takeWhile (fun x => x != s)).countP f

/-- The rank of a node counts what is visited before it. -/
theorem before_eq_dfsRank (hs : T.At l s) : T.before f s = T.dfsRank f l s := by
  obtain ⟨u, v, hsplit, hnot⟩ := eq_append_cons_of_mem (mem_dfs hs.lt_size)
  have htake : T.dfs.takeWhile (fun x => x != s) = u := by
    rw [hsplit, takeWhile_append_of_pos (fun x hx => by
      rw [bne_iff_ne]
      exact fun he => hnot (he ▸ hx))]
    simp
  rw [LTree.before, htake, dfsRank_eq f hs hsplit]

/-- Only the marks of nodes count. -/
theorem dfsRank_congr {g : Nat → Bool} (h : ∀ s, s < T.size → f s = g s) (hs : T.At l s) :
    T.dfsRank f l s = T.dfsRank g l s := by
  have htotal : ∀ {k x : Nat}, T.At k x → T.total f k x = T.total g k x := by
    intro k x hx
    refine sum_congr rfl (fun i _ => ones_congr (fun y hy => h y ?_))
    exact hy.trans_le ((cut_le_level hx i).trans (level_le_size _))
  unfold LTree.dfsRank
  rw [htotal hs, htotal at_zero]

end LevelTree
