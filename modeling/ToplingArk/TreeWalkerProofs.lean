import Mathlib.Data.List.Basic

/-! # Tree walkers — breadth first, depth first, and both

    A walker holds the vertices that have been found and not been visited.  `next` takes one
    of them, and the children of a visited vertex are added.  The three orders differ in which
    vertex is next; what is pending does not depend on it. -/

namespace TreeWalker

open List

/-- `resize` and `putRoot`, `next`, `putChildrenT`, `is_finished`. -/
structure Walker where
  W : Type
  root : Nat → W
  next : W → Option (Nat × W)
  put : W → List Nat → W
  finished : W → Bool

/-! ## BFS_TreeWalker -/

/-- `BFS_TreeWalker`: two queues, and a place in the first. -/
structure Bfs where
  q1 : List Nat
  q2 : List Nat
  idx : Nat
  le : idx ≤ q1.length

/-- `next`: the queues are exchanged when the first is used up. -/
def Bfs.next (w : Bfs) : Option (Nat × Bfs) :=
  if h : w.idx < w.q1.length then
    some (w.q1[w.idx], { w with idx := w.idx + 1, le := h })
  else
    -- the queues are swapped
    match w.q2 with
    | [] => none
    | x :: l =>
      some (x, { q1 := x :: l, q2 := [], idx := 1, le := Nat.succ_le_succ (Nat.zero_le _) })

/-- The walk in breadth. -/
def bfs : Walker where
  W := Bfs
  root := fun r => { q1 := [r], q2 := [], idx := 0, le := Nat.zero_le _ }
  next := Bfs.next
  put := fun w children => { w with q2 := w.q2 ++ children }
  finished := fun w => w.q1.length + w.q2.length == w.idx

/-! ## DFS_TreeWalker -/

/-- The stack, its top first; the first child is put last. -/
def dfs : Walker where
  W := List Nat
  root := fun r => [r]
  next := fun
    | [] => none
    | x :: stack => some (x, stack)
  put := fun stack children => children ++ stack
  finished := fun stack => stack.isEmpty

/-! ## CFS_TreeWalker -/

/-- `MaxBFS_Depth` -/
def maxBfsDepth : Nat := 2

/-- `CFS_TreeWalker`: breadth first, then depth. -/
structure Cfs where
  q1 : List Nat
  q2 : List Nat
  depth : Nat
  q1Pos : Nat
  le : depth < maxBfsDepth → q1Pos ≤ q1.length

/-- `m_q2.pop_val()`. -/
def Cfs.popVal (depth : Nat) (q1 : List Nat) (q1Pos : Nat) (hdepth : ¬ depth < maxBfsDepth)
    (q2 : List Nat) : Option (Nat × Cfs) :=
  q2.getLast?.map (fun x => (x, { q1 := q1, q2 := q2.dropLast, depth := depth, q1Pos := q1Pos,
                                  le := fun h => absurd h hdepth }))

/-- `next` -/
def Cfs.next (w : Cfs) : Option (Nat × Cfs) :=
  if hdepth : w.depth < maxBfsDepth then
    if h : w.q1Pos < w.q1.length then
      some (w.q1[w.q1Pos], { w with q1Pos := w.q1Pos + 1, le := fun _ => h })
    else if hnext : w.depth + 1 < maxBfsDepth then
      match w.q2 with
      | [] => none
      | x :: l => some (x, { q1 := x :: l, q2 := [], depth := w.depth + 1, q1Pos := 1,
                             le := fun _ => Nat.succ_le_succ (Nat.zero_le _) })
    else
      -- from here on the second queue is a stack
      Cfs.popVal (w.depth + 1) [] w.q1Pos hnext w.q2.reverse
  else Cfs.popVal w.depth w.q1 w.q1Pos hdepth w.q2

/-- The cache-friendly walk. -/
def cfs : Walker where
  W := Cfs
  root := fun r => { q1 := [r], q2 := [], depth := 0, q1Pos := 0, le := fun _ => Nat.zero_le _ }
  next := Cfs.next
  put := fun w children =>
    { w with q2 := w.q2 ++ (if maxBfsDepth ≤ w.depth then children.reverse else children) }
  finished := fun w =>
    if w.depth < maxBfsDepth then decide (w.q1.length + w.q2.length ≤ w.q1Pos) else w.q2.isEmpty

/-! ## What a walk relies on -/

/-- `next` takes a pending vertex, and children become pending. -/
structure Lawful (M : Walker) where
  pending : M.W → List Nat
  pending_root : ∀ r, pending (M.root r) = [r]
  finished_iff : ∀ w, M.finished w = true ↔ pending w = []
  next_spec : ∀ w, pending w ≠ [] →
    ∃ x w', M.next w = some (x, w') ∧ (pending w).Perm (x :: pending w')
  put_perm : ∀ w children, (pending (M.put w children)).Perm (children ++ pending w)

/-- The next state is one of those waiting. -/
theorem bfs_next_spec (w : Bfs) (h : w.q1.drop w.idx ++ w.q2 ≠ []) :
    ∃ x w', w.next = some (x, w') ∧
      (w.q1.drop w.idx ++ w.q2).Perm (x :: (w'.q1.drop w'.idx ++ w'.q2)) := by
  unfold Bfs.next
  by_cases hlt : w.idx < w.q1.length
  · rw [dif_pos hlt]
    refine ⟨_, _, rfl, ?_⟩
    rw [drop_eq_getElem_cons hlt]
    exact .refl _
  rw [dif_neg hlt]
  have hnil : w.q1.drop w.idx = [] := drop_eq_nil_of_le (Nat.le_of_not_lt hlt)
  rw [hnil, nil_append] at h ⊢
  cases hq : w.q2 with
  | nil => exact absurd hq h
  | cons x l =>
    refine ⟨x, _, rfl, ?_⟩
    show (x :: l).Perm (x :: (l ++ []))
    rw [append_nil]

/-- The walk in breadth gives every waiting state once. -/
def bfs_lawful : Lawful bfs where
  pending := fun w => w.q1.drop w.idx ++ w.q2
  pending_root := fun _ => rfl
  finished_iff := by
    intro w
    have hle := w.le
    show (w.q1.length + w.q2.length == w.idx) = true ↔ _
    rw [beq_iff_eq, append_eq_nil_iff, drop_eq_nil_iff, ← length_eq_zero_iff]
    omega
  next_spec := bfs_next_spec
  put_perm := by
    intro w children
    show (w.q1.drop w.idx ++ (w.q2 ++ children)).Perm _
    rw [← append_assoc]
    exact perm_append_comm

/-- The walk in depth does so. -/
def dfs_lawful : Lawful dfs where
  pending := fun stack => stack
  pending_root := fun _ => rfl
  finished_iff := fun stack => isEmpty_iff
  next_spec := by
    intro stack h
    cases stack with
    | nil => exact absurd rfl h
    | cons x stack => exact ⟨x, stack, rfl, .refl _⟩
  put_perm := fun _ _ => .refl _

/-- The vertices a walk in both orders still has. -/
def Cfs.pending (w : Cfs) : List Nat :=
  if w.depth < maxBfsDepth then w.q1.drop w.q1Pos ++ w.q2 else w.q2

theorem popVal_spec {depth : Nat} {q1 : List Nat} {q1Pos : Nat} (hdepth : ¬ depth < maxBfsDepth)
    {q2 : List Nat} (h : q2 ≠ []) :
    ∃ x w', Cfs.popVal depth q1 q1Pos hdepth q2 = some (x, w') ∧ q2.Perm (x :: w'.pending) := by
  refine ⟨q2.getLast h, _, by unfold Cfs.popVal; rw [getLast?_eq_some_getLast h]; rfl, ?_⟩
  unfold Cfs.pending
  rw [if_neg hdepth]
  conv_lhs => rw [← dropLast_append_getLast h]
  exact perm_append_comm

/-- The next state is one of those waiting. -/
theorem cfs_next_spec (w : Cfs) (h : w.pending ≠ []) :
    ∃ x w', w.next = some (x, w') ∧ w.pending.Perm (x :: w'.pending) := by
  unfold Cfs.next
  by_cases hdepth : w.depth < maxBfsDepth
  · have hpend : w.pending = w.q1.drop w.q1Pos ++ w.q2 := if_pos hdepth
    rw [dif_pos hdepth, hpend]
    rw [hpend] at h
    by_cases hlt : w.q1Pos < w.q1.length
    · rw [dif_pos hlt]
      refine ⟨_, _, rfl, ?_⟩
      unfold Cfs.pending
      rw [if_pos hdepth, drop_eq_getElem_cons hlt]
      exact .refl _
    rw [dif_neg hlt]
    have hnil : w.q1.drop w.q1Pos = [] := drop_eq_nil_of_le (Nat.le_of_not_lt hlt)
    rw [hnil, nil_append] at h ⊢
    by_cases hnext : w.depth + 1 < maxBfsDepth
    · rw [dif_pos hnext]
      cases hq : w.q2 with
      | nil => exact absurd hq h
      | cons x l =>
        refine ⟨x, _, rfl, ?_⟩
        unfold Cfs.pending
        rw [if_pos hnext]
        show (x :: l).Perm (x :: (l ++ []))
        rw [append_nil]
    · rw [dif_neg hnext]
      obtain ⟨x, w', hpop, hperm⟩ := @popVal_spec _ [] w.q1Pos hnext _
        (reverse_ne_nil_iff.mpr h)
      exact ⟨x, w', hpop, (reverse_perm _).symm.trans hperm⟩
  · have hpend : w.pending = w.q2 := if_neg hdepth
    rw [dif_neg hdepth, hpend]
    rw [hpend] at h
    exact popVal_spec hdepth h

/-- The cache-friendly walk does so. -/
def cfs_lawful : Lawful cfs where
  pending := Cfs.pending
  pending_root := fun _ => rfl
  finished_iff := by
    intro w
    show (if w.depth < maxBfsDepth then _ else _) = true ↔ w.pending = []
    unfold Cfs.pending
    by_cases hdepth : w.depth < maxBfsDepth
    · have hle := w.le hdepth
      rw [if_pos hdepth, if_pos hdepth, decide_eq_true_iff, append_eq_nil_iff,
        drop_eq_nil_iff, ← length_eq_zero_iff]
      omega
    · rw [if_neg hdepth, if_neg hdepth, List.isEmpty_iff]
  next_spec := cfs_next_spec
  put_perm := by
    intro w children
    show (Cfs.pending { w with q2 := _, le := _ }).Perm (children ++ w.pending)
    unfold Cfs.pending
    dsimp only
    by_cases hdepth : w.depth < maxBfsDepth
    · rw [if_pos hdepth, if_pos hdepth, if_neg (Nat.not_le.mpr hdepth), ← append_assoc]
      exact perm_append_comm
    · rw [if_neg hdepth, if_neg hdepth, if_pos (Nat.le_of_not_lt hdepth)]
      exact perm_append_comm.trans ((reverse_perm children).append_right _)

/-! ## The orders by name -/

/-- The orders that a caller can ask for. -/
inductive WalkMethod
  | bfs
  | dfs
  | cfs
  deriving DecidableEq, Repr

/-- The walker of an order. -/
def WalkMethod.walker : WalkMethod → Walker
  | .bfs => TreeWalker.bfs
  | .dfs => TreeWalker.dfs
  | .cfs => TreeWalker.cfs

/-- **EVERY ORDER** is lawful. -/
def WalkMethod.lawful : (m : WalkMethod) → Lawful m.walker
  | .bfs => bfs_lawful
  | .dfs => dfs_lawful
  | .cfs => cfs_lawful

end TreeWalker
