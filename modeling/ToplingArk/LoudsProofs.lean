import ToplingArk.LevelTreeProofs

/-! # The level-order bits of a tree

    The degrees of a tree in level order, every one in unary and closed by a zero, after a
    one and a zero for an edge into the root.  A node is then two things: a one, which its
    parent has written, and a zero, after which its own children follow.  Selecting the one
    or the zero with the number of the node finds its parent or its first child. -/

namespace Louds

open BitCount LevelTree List

/-! ## Positions in a list of bits -/

variable (A R : List Bool) {s : Nat}

theorem ones_append : ones (ofList (A ++ R)) A.length = A.count true := by
  rw [← ones_ofList]
  refine ones_congr (fun i hi => ?_)
  unfold ofList
  rw [getD_eq_getElem?_getD, getD_eq_getElem?_getD, getElem?_append_left hi]

theorem ofList_append (b : Bool) : ofList (A ++ b :: R) A.length = b :=
  ofList_eq (by rw [getElem?_append_right le_rfl, Nat.sub_self]; rfl)

/-- The one behind a part is selected by the ones in it. -/
theorem isSelect_split : IsSelect (ofList (A ++ true :: R)) (A.count true) A.length :=
  ⟨ofList_append A R true, ones_append A _⟩

/-- The zero behind a part is selected by the zeros in it. -/
theorem isSelect_neg_split :
    IsSelect (negBits (ofList (A ++ false :: R))) (A.count false) A.length := by
  refine ⟨by rw [negBits, ofList_append]; rfl, ?_⟩
  have h1 := ones_append A (false :: R)
  have h2 := count_true_add_count_false A
  rw [ones_negBits, h1]
  omega

/-- The number of ones that follow from a position on. -/
def oneSeqLen (B : List Bool) (p : Nat) : Nat := ((B.drop p).takeWhile id).length

/-- The run of ones behind a part. -/
theorem oneSeqLen_split (d : Nat) :
    oneSeqLen (A ++ (replicate d true ++ false :: R)) A.length = d := by
  unfold oneSeqLen
  simp

/-! ## The bits -/

/-- A degree in unary. -/
def unary (d : Nat) : List Bool := List.replicate d true ++ [false]

/-- The bits up to the children of a node. -/
def head (T : LTree) (s : Nat) : List Bool := true :: false :: (T.deg.take s).flatMap unary

/-- All the bits. -/
def bits (T : LTree) : List Bool := true :: false :: T.deg.flatMap unary

variable {T : LTree}

theorem length_flatMap_unary (ds : List Nat) :
    (ds.flatMap unary).length = ds.sum + ds.length := by
  induction ds with
  | nil => rfl
  | cons d ds ih =>
    simp only [flatMap_cons, length_append, ih, sum_cons, length_cons, unary,
      length_replicate, length_nil]
    omega

theorem count_flatMap_unary (ds : List Nat) : (ds.flatMap unary).count true = ds.sum := by
  induction ds with
  | nil => rfl
  | cons d ds ih => simp [flatMap_cons, count_append, ih, unary]

/-- Where the children of node `s` are listed. -/
theorem length_head (hs : s ≤ T.size) : (head T s).length = s + T.first s + 1 := by
  have hlen : (T.deg.take s).length = s := length_take_of_le hs
  show ((T.deg.take s).flatMap unary).length + 1 + 1 = s + (1 + _) + 1
  rw [length_flatMap_unary, hlen]
  omega

/-- The ones before are the nodes before its children. -/
theorem count_head (s : Nat) : (head T s).count true = T.first s := by
  show count true (true :: false :: _) = 1 + _
  rw [count_cons_self, count_cons_of_ne (by decide), count_flatMap_unary, Nat.add_comm]

/-- Every node has a one, and every list of children its zero. -/
theorem length_bits : (bits T).length = 2 * T.size + 1 := by
  have hwhole := T.whole
  show (T.deg.flatMap unary).length + 1 + 1 = 2 * T.deg.length + 1
  rw [length_flatMap_unary]
  omega

/-- Every node has a one. -/
theorem count_bits : (bits T).count true = T.size := by
  show count true (true :: false :: _) = T.deg.length
  rw [count_cons_self, count_cons_of_ne (by decide), count_flatMap_unary, ← T.whole, Nat.add_comm]

theorem count_false_bits : (bits T).count false = T.size + 1 := by
  have h := count_true_add_count_false (bits T)
  rw [count_bits, length_bits] at h
  omega

/-- The bits around the children of node `s`. -/
theorem bits_split (hs : s < T.size) :
    ∃ rest, bits T =
      head T s ++ (replicate (T.first (s + 1) - T.first s) true ++ false :: rest) := by
  have hlt : s < T.deg.length := hs
  have hdeg := first_succ (T := T) (getElem?_eq_getElem hlt)
  refine ⟨(T.deg.drop (s + 1)).flatMap unary, ?_⟩
  have hsplit : T.deg = T.deg.take s ++ T.deg[s] :: T.deg.drop (s + 1) := by
    rw [← drop_eq_getElem_cons hlt, take_append_drop]
  unfold bits head
  conv_lhs => rw [hsplit]
  rw [hdeg, Nat.add_sub_cancel_left, flatMap_append, flatMap_cons, unary]
  simp

/-- The bits before the children of a node end with its zero. -/
theorem head_eq (hs : s ≤ T.size) : ∃ A, head T s = A ++ [false] := by
  cases s with
  | zero => exact ⟨[true], rfl⟩
  | succ s =>
    have hlt : s < T.deg.length := hs
    refine ⟨head T s ++ replicate T.deg[s] true, ?_⟩
    unfold head
    rw [take_add_one, getElem?_eq_getElem hlt, flatMap_append]
    simp [unary]

/-! ## Select -/

/-- **THE ZERO OF A NODE** is before its first child. -/
theorem isSelect_zero (hs : s ≤ T.size) :
    IsSelect (negBits (ofList (bits T))) s (s + T.first s) := by
  obtain ⟨A, hA⟩ := head_eq hs
  have hpre : ∃ rest, bits T = A ++ false :: rest := by
    rcases Nat.eq_or_lt_of_le hs with rfl | hlt
    · refine ⟨[], ?_⟩
      rw [← hA]
      unfold bits head LTree.size
      rw [take_length]
    · obtain ⟨rest, hbits⟩ := bits_split hlt
      refine ⟨replicate (T.first (s + 1) - T.first s) true ++ false :: rest, ?_⟩
      rw [hbits, hA, append_assoc]
      rfl
  obtain ⟨rest, hbits⟩ := hpre
  have hlen := length_head hs
  have hcount := count_head (T := T) s
  have hboth := count_true_add_count_false A
  rw [hA, length_append, length_singleton] at hlen
  rw [hA, count_append, count_singleton] at hcount
  simp only [Bool.false_beq, Bool.not_true, Bool.false_eq_true, if_false, Nat.add_zero] at hcount
  have hsel := isSelect_neg_split A rest
  rw [hbits]
  rwa [show A.count false = s by omega, show A.length = s + T.first s by omega] at hsel

section

variable {c p : Nat} (h1 : T.first p ≤ c) (h2 : c < T.first (p + 1)) (hp : p < T.size)

include h1 h2 hp

/-- The bits around the one of child `c`. -/
theorem bits_split_child :
    ∃ A rest, bits T = A ++ true :: (replicate (T.first (p + 1) - (c + 1)) true ++ false :: rest) ∧
      A.length = c + p + 1 ∧ A.count true = c := by
  obtain ⟨rest, hbits⟩ := bits_split hp
  refine ⟨head T p ++ replicate (c - T.first p) true, rest, ?_, ?_, ?_⟩
  · have hrep : replicate (T.first (p + 1) - T.first p) true =
        replicate (c - T.first p) true ++
          true :: replicate (T.first (p + 1) - (c + 1)) true := by
      rw [← replicate_succ, replicate_append_replicate]
      congr 1
      omega
    rw [hbits, hrep, append_assoc, append_assoc, cons_append]
  · rw [length_append, length_head hp.le, length_replicate]
    omega
  · rw [count_append, count_head, count_replicate_self]
    omega

/-- **THE ONE OF A NODE** is behind the zero of its parent. -/
theorem isSelect_one : IsSelect (ofList (bits T)) c (c + p + 1) := by
  obtain ⟨A, rest, hbits, hlen, hcount⟩ := bits_split_child h1 h2 hp
  have hsel := isSelect_split A (replicate (T.first (p + 1) - (c + 1)) true ++ false :: rest)
  rw [hbits]
  rwa [hlen, hcount] at hsel

/-- The bit behind the one of a node tells whether it has a next brother. -/
theorem bit_brother : (bits T)[c + p + 2]? = some (decide (c + 1 < T.first (p + 1))) := by
  obtain ⟨A, rest, hbits, hlen, -⟩ := bits_split_child h1 h2 hp
  rw [hbits, getElem?_append_right (by omega), show c + p + 2 - A.length = 1 by omega]
  cases hd : T.first (p + 1) - (c + 1) with
  | zero => rw [decide_eq_false (by omega)]; rfl
  | succ d => rw [decide_eq_true (by omega)]; rfl

/-- The bit before the one of a node tells whether it has a previous brother. -/
theorem bit_before : (bits T)[c + p]? = some (decide (T.first p < c)) := by
  obtain ⟨rest, hbits⟩ := bits_split hp
  have hlen := length_head hp.le
  by_cases hfirst : T.first p < c
  · rw [hbits, getElem?_append_right (by omega),
      getElem?_append_left (by rw [length_replicate]; omega), getElem?_replicate,
      if_pos (by omega), decide_eq_true hfirst]
  · obtain ⟨A, hA⟩ := head_eq hp.le
    rw [hA, length_append, length_singleton] at hlen
    rw [hbits, hA, append_assoc, getElem?_append_right (by omega), decide_eq_false hfirst,
      show c + p - A.length = 0 by omega]
    rfl

end

/-- The ones behind the zero of a node are its children. -/
theorem oneSeqLen_bits (hs : s < T.size) :
    oneSeqLen (bits T) (s + T.first s + 1) = T.first (s + 1) - T.first s := by
  obtain ⟨rest, hbits⟩ := bits_split hs
  rw [hbits, ← length_head hs.le]
  exact oneSeqLen_split _ _ _

/-- The bit behind the zero of a node tells whether it has children. -/
theorem bit_child (hs : s < T.size) :
    (bits T)[s + T.first s + 1]? = some (decide (T.first s < T.first (s + 1))) := by
  obtain ⟨rest, hbits⟩ := bits_split hs
  rw [hbits, ← length_head hs.le, getElem?_append_right le_rfl, Nat.sub_self]
  cases hd : T.first (s + 1) - T.first s with
  | zero => rw [decide_eq_false (by omega)]; rfl
  | succ d => rw [decide_eq_true (by omega)]; rfl

end Louds
