import ToplingArk.DfaProofs
import ToplingArk.HashChainProofs

/-! # AutomataTpl — the state store

    A state keeps its transitions by ascending letter together with the range of letters
    they span: the fast state types store the last letter itself, the packed ones only the
    number of blocks of 32 letters.  A state with more than one transition has a block in the
    memory pool for its bitmap and its targets; a place that a state cannot address is an
    exception.  Erased states form a free list.  `none` is a thrown exception or an access to
    a state that is not in use. -/

namespace Automata

open HashChain List Option Function Nat

/-! ## State types -/

/-- The instantiated state types: the packed ones, then the fast ones. -/
inductive StateTp
  | state4B
  | state5B
  | state6B
  | state34
  | state7B
  | state4B448
  | state5B448
  | state6B512
  | state7B448
  | state32
  | state32w512
  | state64
  | state64w512
  deriving DecidableEq, Repr

/-- The nine packed types store whole blocks of 32 letters. -/
def StateTp.packed : StateTp → Bool
  | .state32 | .state32w512 | .state64 | .state64w512 => false
  | _ => true

/-- How many letters a state type has. -/
def StateTp.sigma : StateTp → Nat
  | .state4B448 | .state5B448 | .state7B448 => 448
  | .state6B512 | .state32w512 | .state64w512 => 512
  | _ => 256

/-- The bits of a saved position, which is also a state id. -/
def StateTp.ptrBits : StateTp → Nat
  | .state4B => 18
  | .state5B => 26
  | .state6B => 32
  | .state34 => 34
  | .state7B => 42
  | .state4B448 => 17
  | .state5B448 => 25
  | .state6B512 => 32
  | .state7B448 => 41
  | .state32 | .state32w512 => 32
  | .state64 => 45
  | .state64w512 => 43

variable (P : StateTp) {old j n : Nat}

/-- `nil_state`: all bits of the position field are set. -/
def StateTp.nilState : Nat := 2 ^ P.ptrBits - 1

/-- `max_state` -/
def StateTp.maxState : Nat := P.nilState - 1

/-- The bytes of a target, which are also the alignment of the memory pool. -/
def StateTp.align : StateTp → Nat
  | .state34 | .state7B | .state7B448 | .state64 | .state64w512 => 8
  | _ => 4

/-- The first offset that `setpos` cannot store. -/
def StateTp.maxPos : Nat := P.nilState * P.align

/-- The bits of the bitmap for a range of letters. -/
def StateTp.bmRealBits (bits : Nat) : Nat :=
  if P.align ≤ 4 ∧ bits ≤ 32 then 32 else (bits + 63) / 64 * 64

/-! ## States -/

/-- A state.  `span` is `nbm` for a packed state and `maxch - minch` for a fast one; the
    transitions are pairs of letter and target. -/
structure State where
  minch : Nat
  span : Nat
  term : Bool
  moves : List (Nat × Nat)
  deriving DecidableEq, Repr

/-- A state as its constructor leaves it. -/
def State.new : State := { minch := 0, span := 0, term := false, moves := [] }

variable (s : State) {s' : State}

/-- `setch`: a range of one letter. -/
def State.setch (ch : Nat) : State :=
  { minch := ch, span := 0, term := s.term, moves := s.moves }

/-- `getMaxch`: the last letter of the stored range. -/
def State.getMaxch : Nat :=
  if P.packed then
    if s.span = 0 then s.minch else min (P.sigma - 1) (s.minch + (s.span * 32 - 1))
  else s.minch + s.span

/-- The span that is stored for a range of at least two letters. -/
def StateTp.spanOf (lo hi : Nat) : Nat :=
  if P.packed then (hi - lo) / 32 + 1 else hi - lo

/-- `setMinch`: the range grows downwards to `ch`. -/
def State.setMinch (ch : Nat) : State :=
  { s with span := P.spanOf ch (s.getMaxch P), minch := ch }

/-- `setMaxch`: the range grows upwards to `ch`. -/
def State.setMaxch (ch : Nat) : State :=
  { s with span := P.spanOf s.minch ch }

/-- `range_covers` -/
def State.rangeCovers (ch : Nat) : Bool :=
  if P.packed then ch == s.minch || (decide (s.minch < ch) && decide (ch < s.minch + s.span * 32))
  else decide (s.minch ≤ ch) && decide (ch ≤ s.minch + s.span)

/-- `rlen`: the bits that the range takes. -/
def State.rlen : Nat := if P.packed then s.span * 32 else s.span + 1

/-- The length of the block in the pool, which only more than one transition needs. -/
def State.blockLen : Nat :=
  if s.span = 0 then 0
  else (P.bmRealBits (s.rlen P) / 8 + s.moves.length * P.align + (P.align - 1)) / P.align * P.align

/-- Other transitions for the stored range. -/
def State.setMoves (moves : List (Nat × Nat)) : State := { s with moves := moves }

/-- The target of the transition with a letter. -/
def target : List (Nat × Nat) → Nat → Option Nat
  | [], _ => none
  | m :: l, ch => if m.1 = ch then some m.2 else target l ch

/-- A new transition at its place. -/
def insertMove : List (Nat × Nat) → Nat → Nat → List (Nat × Nat)
  | [], ch, t => [(ch, t)]
  | m :: l, ch, t => if ch < m.1 then (ch, t) :: m :: l else m :: insertMove l ch t

/-- The target of a transition overwritten. -/
def replaceMove (l : List (Nat × Nat)) (ch t : Nat) : List (Nat × Nat) :=
  l.map (fun m => if m.1 = ch then (ch, t) else m)

/-- `state_move`: no transition outside the range. -/
def State.move (ch : Nat) : Option Nat :=
  if s.rangeCovers P ch = false then none
  else if s.span = 0 then s.moves.head?.map Prod.snd
  else target s.moves ch

/-- `add_move_imp`: the changed state and the target that was there before. -/
def State.addMove (t ch : Nat) (overwrite : Bool) : State × Option Nat :=
  if s.span = 0 then
    match s.moves with
    | [] => ((s.setch ch).setMoves [(ch, t)], none)
    | m :: l =>
      if s.minch = ch then
        (if overwrite then s.setMoves [(ch, t)] else s, some m.2)
      else if ch < s.minch then
        ((s.setMinch P ch).setMoves ((ch, t) :: m :: l), none)
      else ((s.setMaxch P ch).setMoves (m :: l ++ [(ch, t)]), none)
  else if ch < s.minch then ((s.setMinch P ch).setMoves ((ch, t) :: s.moves), none)
  else if s.getMaxch P < ch then
    ((s.setMaxch P ch).setMoves (s.moves ++ [(ch, t)]), none)
  else
    match target s.moves ch with
    | some old =>
      (if overwrite then s.setMoves (replaceMove s.moves ch t) else s, some old)
    | none => (s.setMoves (insertMove s.moves ch t), none)

/-- `del_all_move` -/
def State.delAllMove : State := (s.setch 0).setMoves []

/-- `add_all_move`, for a state without transitions. -/
def State.addAllMove (moves : List (Nat × Nat)) : State :=
  match moves with
  | [] => s
  | [m] => { s.setch m.1 with moves := [m] }
  | m :: m' :: l =>
    ((s.setch m.1).setMaxch P ((m' :: l).getLastD m).1).setMoves (m :: m' :: l)

/-- `del_move`: all transitions are taken out, and the others put back. -/
def State.delMove (ch : Nat) : State :=
  s.delAllMove.addAllMove P (s.moves.filter (fun m => m.1 != ch))

/-- `onfly_hash_equal`: the range, the final bit and the transitions as they are stored. -/
def State.onflyEqual (x y : State) : Bool :=
  x.minch == y.minch && x.getMaxch P == y.getMaxch P && x.term == y.term &&
    (if x.span = 0 then x.moves.head?.map Prod.snd == y.moves.head?.map Prod.snd
     else x.moves == y.moves)

/-! ## Transitions by letter -/

/-- Strictly ascending letters. -/
def Ascending (l : List (Nat × Nat)) : Prop := l.Pairwise (fun m m' => m.1 < m'.1)

instance (l : List (Nat × Nat)) : Decidable (Ascending l) :=
  inferInstanceAs (Decidable (l.Pairwise (fun m m' => m.1 < m'.1)))

variable {ch i t : Nat} {l : List (Nat × Nat)} {m : Nat × Nat} {x y : State}

/-- A letter that no transition has leads nowhere. -/
theorem target_eq_none (h : ∀ m ∈ l, m.1 ≠ ch) : target l ch = none := by
  induction l with
  | nil => rfl
  | cons m l ih =>
    rw [target, if_neg (h m mem_cons_self)]
    exact ih (fun m' hm' => h m' (mem_cons_of_mem _ hm'))

/-- Where a letter leads is one of the transitions. -/
theorem mem_of_target (h : target l ch = some t) : (ch, t) ∈ l := by
  induction l with
  | nil => cases h
  | cons m l ih =>
    rw [target] at h
    split at h
    · rename_i heq
      rw [← heq, ← some.inj h]
      exact mem_cons_self
    · exact mem_cons_of_mem _ (ih h)

/-- Every transition is found by its letter. -/
theorem target_of_mem (hl : Ascending l) (hm : m ∈ l) : target l m.1 = some m.2 := by
  induction l with
  | nil => cases hm
  | cons x l ih =>
    obtain ⟨hx, hl⟩ := pairwise_cons.mp hl
    rw [target]
    rcases mem_cons.mp hm with rfl | hm
    · rw [if_pos rfl]
    · rw [if_neg (Nat.ne_of_lt (hx m hm))]
      exact ih hl hm

/-- The first of two lists that has the letter decides. -/
theorem target_append (l l' : List (Nat × Nat)) (ch : Nat) :
    target (l ++ l') ch = (target l ch).or (target l' ch) := by
  induction l with
  | nil => rfl
  | cons m l ih =>
    rw [cons_append, target, target, ih]
    split <;> rfl

/-- Lists of ascending letters are the same if they have the same targets. -/
theorem ascending_ext {l' : List (Nat × Nat)} (hl : Ascending l) (hl' : Ascending l')
    (h : ∀ ch, target l ch = target l' ch) : l = l' := by
  have hnodup : ∀ {k : List (Nat × Nat)}, Ascending k → k.Nodup := by
    intro k hk
    refine List.Pairwise.imp (fun {a b} hlt heq => ?_) hk
    rw [heq] at hlt
    exact lt_irrefl _ hlt
  have hperm : l.Perm l' := by
    refine (perm_ext_iff_of_nodup (hnodup hl) (hnodup hl')).mpr (fun m => ?_)
    constructor
    · intro hm
      exact mem_of_target ((h m.1).symm.trans (target_of_mem hl hm))
    · intro hm
      exact mem_of_target ((h m.1).trans (target_of_mem hl' hm))
  refine hperm.eq_of_pairwise (fun a b _ _ hab hba => ?_) hl hl'
  exact absurd (hab.trans hba) (lt_irrefl _)

/-- Only the replaced letter leads elsewhere. -/
theorem target_replaceMove (l : List (Nat × Nat)) (ch t c : Nat) :
    target (replaceMove l ch t) c =
      if c = ch then (target l ch).map (fun _ => t) else target l c := by
  induction l with
  | nil => split <;> rfl
  | cons x l ih =>
    show target ((if x.1 = ch then _ else x) :: replaceMove l ch t) c = _
    split
    next hx =>
      rw [target, target, target, ih, hx, if_pos rfl]
      by_cases hc : c = ch
      · subst hc
        rw [if_pos rfl, if_pos rfl]
        rfl
      · rw [if_neg hc, if_neg hc, if_neg (Ne.symm hc), if_neg (Ne.symm hc)]
    next hx =>
      rw [target, target, target, ih, if_neg hx]
      by_cases hxc : x.1 = c
      · rw [if_pos hxc, if_pos hxc, if_neg (fun heq => hx (hxc.trans heq))]
      · rw [if_neg hxc, if_neg hxc]

theorem replaced_letter (m : Nat × Nat) (ch t : Nat) :
    (if m.1 = ch then (ch, t) else m).1 = m.1 := by
  split
  · rename_i heq
    exact heq.symm
  · rfl

/-- Replacing a target keeps the letters. -/
theorem replaceMove_letters (l : List (Nat × Nat)) (ch t : Nat) :
    (replaceMove l ch t).map Prod.fst = l.map Prod.fst := by
  unfold replaceMove
  rw [List.map_map]
  exact map_congr_left (fun m _ => replaced_letter m ch t)

/-- The order of transitions is that of their letters. -/
theorem ascending_iff_letters : Ascending l ↔ (l.map Prod.fst).Pairwise (· < ·) :=
  pairwise_map.symm

/-! ## Well-formed states -/

/-- The stored range fits the transitions. -/
structure Ok (P : StateTp) (s : State) : Prop where
  ascending : Ascending s.moves
  letters : ∀ m ∈ s.moves, m.1 < P.sigma
  empty : s.moves = [] → s.minch = 0
  single : s.span = 0 → s.moves = [] ∨ ∃ t, s.moves = [(s.minch, t)]
  first : s.span ≠ 0 → ∃ t m l, s.moves = (s.minch, t) :: m :: l
  range : s.span ≠ 0 → ∀ m ∈ s.moves, m.1 ≤ s.getMaxch P
  blocks : P.packed = true → s.span ≠ 0 → s.span ≤ (P.sigma - 1 - s.minch) / 32 + 1
  exact : P.packed = false → s.span ≠ 0 → ∃ m ∈ s.moves, m.1 = s.minch + s.span

variable {P} {s}

/-- A state without transitions is well formed. -/
theorem nil_ok (P : StateTp) (term : Bool) : Ok P { State.new with term := term } where
  ascending := List.Pairwise.nil
  letters := forall_mem_nil _
  empty := fun _ => rfl
  single := fun _ => .inl rfl
  first := fun h => absurd rfl h
  range := fun h => absurd rfl h
  blocks := fun _ h => absurd rfl h
  exact := fun _ h => absurd rfl h

theorem new_ok (P : StateTp) : Ok P State.new := nil_ok P false

theorem getMaxch_fast (hP : P.packed = false) : s.getMaxch P = s.minch + s.span := by
  unfold State.getMaxch
  rw [hP, if_neg Bool.false_ne_true]

/-- A packed range ends with its last block, or with the alphabet. -/
theorem getMaxch_packed (hP : P.packed = true) (hs : s.span ≠ 0) :
    s.getMaxch P = min (P.sigma - 1) (s.minch + (s.span * 32 - 1)) := by
  unfold State.getMaxch
  rw [hP, if_pos rfl, if_neg hs]

theorem getMaxch_zero (hs : s.span = 0) : s.getMaxch P = s.minch := by
  unfold State.getMaxch
  rw [hs]
  exact ite_self _

/-- A state without a span has at most the letter `minch`. -/
theorem Ok.eq_minch (h : Ok P s) (hs : s.span = 0) (hm : m ∈ s.moves) : m.1 = s.minch := by
  rcases h.single hs with hnil | ⟨t, hone⟩
  · rw [hnil] at hm
    cases hm
  · rw [hone] at hm
    rw [mem_singleton.mp hm]

/-- No transition lies below the range. -/
theorem Ok.first_le (h : Ok P s) (hm : m ∈ s.moves) : s.minch ≤ m.1 := by
  by_cases hs : s.span = 0
  · exact (h.eq_minch hs hm).ge
  · obtain ⟨t, m', l, hmoves⟩ := h.first hs
    have hasc := h.ascending
    rw [hmoves] at hasc hm
    rcases mem_cons.mp hm with rfl | hm
    · exact le_rfl
    · exact le_of_lt ((pairwise_cons.mp hasc).1 m hm)

/-- **STATE_MOVE** is the transition with the letter. -/
theorem Ok.move_eq (h : Ok P s) (ch : Nat) : s.move P ch = target s.moves ch := by
  unfold State.move
  -- a range of one letter has at most that transition
  by_cases hs : s.span = 0
  · have hcov : s.rangeCovers P ch = (ch == s.minch) := by
      unfold State.rangeCovers
      split
      · by_cases hch : ch = s.minch
        · simp [hch]
        · simp [hch]
          omega
      · by_cases hch : ch = s.minch
        · simp [hch]
        · rw [beq_false_of_ne hch]
          simp
          omega
    rw [hcov, if_pos hs]
    rcases h.single hs with hnil | ⟨t, hone⟩
    · rw [hnil]
      split <;> rfl
    · rw [hone, target]
      by_cases hch : ch = s.minch
      · rw [if_neg (by simp [hch]), if_pos hch.symm]
        rfl
      · rw [if_pos (beq_false_of_ne hch), if_neg (Ne.symm hch)]
        rfl
  -- a letter outside the range is no transition
  split
  · rename_i hcov
    refine (target_eq_none (fun m hm heq => ?_)).symm
    have hle := h.range hs m hm
    have hge := h.first_le hm
    unfold State.rangeCovers at hcov
    cases hP : P.packed with
    | true =>
      rw [hP] at hcov
      rw [getMaxch_packed hP hs] at hle
      simp at hcov
      omega
    | false =>
      rw [hP] at hcov
      rw [getMaxch_fast hP] at hle
      simp at hcov
      omega
  · rfl

/-- No transition lies above the range. -/
theorem Ok.le_getMaxch (h : Ok P s) (hm : m ∈ s.moves) : m.1 ≤ s.getMaxch P := by
  by_cases hs : s.span = 0
  · rw [getMaxch_zero hs]
    exact (h.eq_minch hs hm).le
  · exact h.range hs m hm

/-- The span of `lo` to `hi` covers both and fits its field. -/
theorem spanOf_range {lo hi : Nat} (hlt : lo < hi) (hhi : hi < P.sigma) (s : State)
    (hmin : s.minch = lo) (hspan : s.span = P.spanOf lo hi) :
    s.span ≠ 0 ∧ hi ≤ s.getMaxch P ∧
      (P.packed = true → s.span ≤ (P.sigma - 1 - s.minch) / 32 + 1) ∧
      (P.packed = false → hi = s.minch + s.span) := by
  unfold StateTp.spanOf at hspan
  cases hP : P.packed with
  | true =>
    rw [hP, if_pos rfl] at hspan
    have hne : s.span ≠ 0 := by omega
    refine ⟨hne, ?_, fun _ => ?_, fun h => absurd h.symm Bool.false_ne_true⟩
    · rw [getMaxch_packed hP hne]
      omega
    · omega
  | false =>
    rw [hP, if_neg Bool.false_ne_true] at hspan
    refine ⟨by omega, ?_, fun h => absurd h Bool.false_ne_true, fun _ => by omega⟩
    rw [getMaxch_fast hP]
    omega

/-- **SET_MOVE** of a letter with a transition. -/
theorem addMove_old (h : Ok P s) (hold : target s.moves ch = some old) (t : Nat) :
    s.addMove P t ch true = (s.setMoves (replaceMove s.moves ch t), some old) := by
  have hmem := mem_of_target hold
  unfold State.addMove
  by_cases hs : s.span = 0
  · rw [if_pos hs]
    rcases h.single hs with hnil | ⟨t0, hone⟩
    · rw [hnil] at hmem
      cases hmem
    rw [hone] at hmem hold ⊢
    obtain ⟨rfl, rfl⟩ : ch = s.minch ∧ old = t0 := by
      have := mem_singleton.mp hmem
      exact ⟨congrArg Prod.fst this, congrArg Prod.snd this⟩
    dsimp only
    rw [if_pos rfl, if_pos rfl]
    unfold replaceMove
    rw [map_singleton, if_pos rfl]
  · have hge := h.first_le hmem
    have hle := h.le_getMaxch hmem
    rw [if_neg hs, if_neg hge.not_gt, if_neg hle.not_gt, hold]
    rfl

/-- Targets may be exchanged under the same letters. -/
theorem Ok.setMoves (h : Ok P s) (hl : l.map Prod.fst = s.moves.map Prod.fst) :
    Ok P (s.setMoves l) := by
  have hmem : ∀ m' ∈ l, ∃ m ∈ s.moves, m.1 = m'.1 := by
    intro m' hm'
    have : m'.1 ∈ l.map Prod.fst := mem_map_of_mem hm'
    rw [hl] at this
    exact mem_map.mp this
  refine { ascending := ?_, letters := fun m' hm' => ?_, empty := fun hnil => ?_,
           single := fun hs => ?_, first := fun hs => ?_, range := fun hs m' hm' => ?_,
           blocks := h.blocks, exact := fun hP hs => ?_ }
  · refine ascending_iff_letters.mpr ?_
    show (l.map Prod.fst).Pairwise _
    rw [hl]
    exact ascending_iff_letters.mp h.ascending
  · obtain ⟨m, hm, heq⟩ := hmem m' hm'
    exact heq ▸ h.letters m hm
  · refine h.empty ?_
    rw [show l = [] from hnil] at hl
    exact map_eq_nil_iff.mp hl.symm
  · rcases h.single hs with hnil | ⟨t0, hone⟩
    · rw [hnil] at hl
      exact .inl (map_eq_nil_iff.mp hl)
    · rw [hone] at hl
      obtain ⟨m, rfl, hm⟩ := map_eq_singleton_iff.mp hl
      exact .inr ⟨m.2, congrArg (fun c => [(c, m.2)]) hm⟩
  · obtain ⟨t0, m, l0, hmoves⟩ := h.first hs
    rw [hmoves] at hl
    obtain ⟨x, l1, rfl, hx, hl1⟩ := map_eq_cons_iff.mp hl
    obtain ⟨y, l2, rfl, -, -⟩ := map_eq_cons_iff.mp hl1
    exact ⟨x.2, y, l2, congrArg (fun c => (c, x.2) :: y :: l2) hx⟩
  · obtain ⟨m, hm, heq⟩ := hmem m' hm'
    exact heq ▸ h.range hs m hm
  · obtain ⟨m, hm, heq⟩ := h.exact hP hs
    have : m.1 ∈ l.map Prod.fst := by
      rw [hl]
      exact mem_map_of_mem hm
    obtain ⟨m', hm', heq'⟩ := mem_map.mp this
    exact ⟨m', hm', heq'.trans heq⟩

/-- Replacing a target keeps a state well formed. -/
theorem replaceMove_ok (h : Ok P s) (ch t : Nat) : Ok P (s.setMoves (replaceMove s.moves ch t)) :=
  h.setMoves (replaceMove_letters s.moves ch t)

/-! ## The stored form -/

/-- The state whose range is exactly that of its transitions. -/
def canonical (P : StateTp) (term : Bool) : List (Nat × Nat) → State
  | [] => { minch := 0, span := 0, term := term, moves := [] }
  | [m] => { minch := m.1, span := 0, term := term, moves := [m] }
  | m :: m' :: l =>
    { minch := m.1, span := P.spanOf m.1 ((m' :: l).getLastD m).1, term := term,
      moves := m :: m' :: l }

@[simp] theorem canonical_term (P : StateTp) (term : Bool) (l : List (Nat × Nat)) :
    (canonical P term l).term = term := by
  rcases l with _ | ⟨m, _ | ⟨m', l⟩⟩ <;> rfl

@[simp] theorem canonical_moves (P : StateTp) (term : Bool) (l : List (Nat × Nat)) :
    (canonical P term l).moves = l := by
  rcases l with _ | ⟨m, _ | ⟨m', l⟩⟩ <;> rfl

/-- **ADD_ALL_MOVE** gives the exact range. -/
theorem addAllMove_eq (P : StateTp) (term : Bool) (l : List (Nat × Nat)) :
    (canonical P term []).addAllMove P l = canonical P term l := by
  rcases l with _ | ⟨m, _ | ⟨m', l⟩⟩ <;> rfl

/-- The last transition has the greatest letter. -/
theorem le_getLastD (hl : Ascending l) (hm : m ∈ l) (d : Nat × Nat) :
    m.1 ≤ (l.getLastD d).1 ∧ l.getLastD d ∈ l := by
  rcases eq_nil_or_concat l with rfl | ⟨init, x, rfl⟩
  · cases hm
  · rw [concat_eq_append] at *
    rw [getLastD_concat]
    refine ⟨?_, mem_append_right _ (mem_singleton_self x)⟩
    rcases mem_append.mp hm with hm | hm
    · exact le_of_lt ((pairwise_append.mp hl).2.2 m hm x (mem_singleton_self x))
    · rw [mem_singleton.mp hm]

/-- A list of ascending letters gives a well-formed state. -/
theorem canonical_ok (hl : Ascending l) (hlt : ∀ m ∈ l, m.1 < P.sigma) (term : Bool) :
    Ok P (canonical P term l) := by
  rcases l with _ | ⟨m, _ | ⟨m', l⟩⟩
  · exact nil_ok P term
  · exact { ascending := hl, letters := hlt, empty := fun h => absurd h (cons_ne_nil _ _),
            single := fun _ => .inr ⟨m.2, rfl⟩, first := fun h => absurd rfl h,
            range := fun h => absurd rfl h, blocks := fun _ h => absurd rfl h,
            exact := fun _ h => absurd rfl h }
  obtain ⟨hm, hrest⟩ := pairwise_cons.mp hl
  obtain ⟨hle, hlast⟩ := le_getLastD hrest (mem_cons_self) m
  have hmin : m.1 < ((m' :: l).getLastD m).1 := hm _ hlast
  obtain ⟨hspan, hmax, hblocks, hexact⟩ := spanOf_range hmin
    (hlt _ (mem_cons_of_mem _ hlast)) (canonical P term (m :: m' :: l)) rfl rfl
  refine { ascending := hl, letters := hlt, empty := fun h => absurd h (cons_ne_nil _ _),
           single := fun hz => absurd hz hspan, first := fun _ => ⟨m.2, m', l, rfl⟩,
           range := fun _ x hx => ?_, blocks := fun hP _ => hblocks hP,
           exact := fun hP _ => ⟨_, mem_cons_of_mem _ hlast, hexact hP⟩ }
  refine le_trans ?_ hmax
  rcases mem_cons.mp hx with rfl | hx
  · exact hmin.le
  · exact (le_getLastD hrest hx m).1

/-- A letter above all others goes to the end. -/
theorem insertMove_last (h : ∀ m ∈ l, m.1 < ch) : insertMove l ch t = l ++ [(ch, t)] := by
  induction l with
  | nil => rfl
  | cons m l ih =>
    rw [insertMove, if_neg (lt_asymm (h m mem_cons_self)),
      ih (fun x hx => h x (mem_cons_of_mem _ hx))]
    rfl

/-- **ASCENDING LETTERS**: a letter behind all others keeps the range exact. -/
theorem addMove_last (hl : Ascending l) (hsig : ∀ m ∈ l, m.1 < P.sigma) (hch : ∀ m ∈ l, m.1 < ch)
    (term : Bool) (t : Nat) (overwrite : Bool) :
    (canonical P term l).addMove P t ch overwrite =
      (canonical P term (l ++ [(ch, t)]), none) := by
  have hok := canonical_ok hl hsig term
  rcases l with _ | ⟨m, _ | ⟨m', l⟩⟩
  · rfl
  · have hlt := hch m mem_cons_self
    unfold State.addMove
    rw [if_pos (show (canonical P term [m]).span = 0 from rfl)]
    show (if m.1 = ch then _ else if ch < m.1 then _ else _) = _
    rw [if_neg hlt.ne, if_neg (lt_asymm hlt)]
    rfl
  have hlt := hch m mem_cons_self
  obtain ⟨hm, hrest⟩ := pairwise_cons.mp hl
  obtain ⟨-, hlast⟩ := le_getLastD hrest (mem_cons_self) m
  have hmin : m.1 < ((m' :: l).getLastD m).1 := hm _ hlast
  have hlastch := hch _ (mem_cons_of_mem _ hlast)
  obtain ⟨hspan, hmax, -, hexact⟩ := spanOf_range hmin
    (hsig _ (mem_cons_of_mem _ hlast)) (canonical P term (m :: m' :: l)) rfl rfl
  have hlast' : ((m' :: l) ++ [(ch, t)]).getLastD m = (ch, t) := getLastD_concat
  have hres : canonical P term (m :: m' :: l ++ [(ch, t)]) =
      { minch := m.1, span := P.spanOf m.1 ch, term := term,
        moves := m :: m' :: l ++ [(ch, t)] } :=
    congrArg (fun x : Nat × Nat => State.mk m.1 (P.spanOf m.1 x.1) term _) hlast'
  rw [hres]
  unfold State.addMove
  rw [if_neg hspan, if_neg (show ¬ ch < (canonical P term (m :: m' :: l)).minch from
    lt_asymm hlt)]
  split
  · rfl
  rename_i hgt
  rw [canonical_moves, target_eq_none (fun x hx => Nat.ne_of_lt (hch x hx)),
    insertMove_last hch]
  -- the letter lies in the last block, so the number of blocks stays
  have hsame : P.spanOf m.1 ((m' :: l).getLastD m).1 = P.spanOf m.1 ch := by
    unfold StateTp.spanOf
    cases hP : P.packed with
    | true =>
      have hval : (canonical P term (m :: m' :: l)).span =
          (((m' :: l).getLastD m).1 - m.1) / 32 + 1 := by
        show P.spanOf _ _ = _
        unfold StateTp.spanOf
        rw [hP, if_pos rfl]
      rw [getMaxch_packed hP hspan, hval] at hgt
      change ¬ min (P.sigma - 1) (m.1 + _) < ch at hgt
      rw [if_pos rfl, if_pos rfl]
      omega
    | false =>
      rw [getMaxch_fast hP] at hgt
      have := hexact hP
      omega
  exact congrArg (fun span => (State.mk m.1 span term _, none)) hsame

/-- Overwriting a target keeps the exact range. -/
theorem canonical_replaceMove (P : StateTp) (term : Bool) (l : List (Nat × Nat)) (ch t : Nat) :
    (canonical P term l).setMoves (replaceMove l ch t) = canonical P term (replaceMove l ch t) := by
  rcases l with _ | ⟨m, _ | ⟨m', l⟩⟩
  · rfl
  · exact congrArg (State.mk · 0 term _) (replaced_letter m ch t).symm
  have hlast : ((replaceMove (m' :: l) ch t).getLastD (if m.1 = ch then (ch, t) else m)).1 =
      ((m' :: l).getLastD m).1 := by
    unfold replaceMove
    rw [getLastD_map]
    exact replaced_letter _ ch t
  exact congrArg₂ (fun lo hi => State.mk lo (P.spanOf lo hi) term _)
    (replaced_letter m ch t).symm hlast.symm

/-- The range begins at the first transition, or at 0. -/
theorem Ok.minch_eq (h : Ok P s) : s.minch = (s.moves.head?.map Prod.fst).getD 0 := by
  by_cases hs : s.span = 0
  · rcases h.single hs with hnil | ⟨t, hone⟩
    · rw [h.empty hnil, hnil]
      rfl
    · rw [hone]
      rfl
  · obtain ⟨t, m, l, hmoves⟩ := h.first hs
    rw [hmoves]
    rfl

/-- A range of some span has more than one letter. -/
theorem Ok.minch_lt_getMaxch (h : Ok P s) (hs : s.span ≠ 0) : s.minch < s.getMaxch P := by
  obtain ⟨t, m, l, hmoves⟩ := h.first hs
  have hasc := h.ascending
  rw [hmoves] at hasc
  have hlt := (pairwise_cons.mp hasc).1 m mem_cons_self
  have hle := h.range hs m (by rw [hmoves]; simp)
  exact hlt.trans_le hle

/-- The ends of the range determine its span. -/
theorem Ok.span_eq (hx : Ok P x) (hy : Ok P y) (hmin : x.minch = y.minch)
    (hmax : x.getMaxch P = y.getMaxch P) : x.span = y.span := by
  by_cases hxs : x.span = 0
  · by_contra hne
    have hlt := hy.minch_lt_getMaxch (fun hys => hne (hxs.trans hys.symm))
    rw [← hmax, getMaxch_zero hxs, hmin] at hlt
    exact lt_irrefl _ hlt
  by_cases hys : y.span = 0
  · have hlt := hx.minch_lt_getMaxch hxs
    rw [hmax, getMaxch_zero hys, hmin] at hlt
    exact absurd hlt (lt_irrefl _)
  cases hP : P.packed with
  | true =>
    have hxb := hx.blocks hP hxs
    have hyb := hy.blocks hP hys
    rw [getMaxch_packed hP hxs, getMaxch_packed hP hys] at hmax
    omega
  | false =>
    rw [getMaxch_fast hP, getMaxch_fast hP] at hmax
    omega

/-- The stored form is the final bit, the transitions and the last letter of the range. -/
theorem Ok.ext (hx : Ok P x) (hy : Ok P y) (hterm : x.term = y.term) (hmoves : x.moves = y.moves)
    (hmax : x.getMaxch P = y.getMaxch P) : x = y := by
  have hmin : x.minch = y.minch := by
    rw [hx.minch_eq, hy.minch_eq, hmoves]
  have hspan := hx.span_eq hy hmin hmax
  obtain ⟨xmin, xspan, xterm, xmoves⟩ := x
  simp only at hmin hspan hterm hmoves
  rw [hmin, hspan, hterm, hmoves]

/-- **ONFLY_HASH_EQUAL** compares the stored form. -/
theorem onflyEqual_iff (hx : Ok P x) (hy : Ok P y) : x.onflyEqual P y = true ↔ x = y := by
  constructor
  · intro h
    unfold State.onflyEqual at h
    simp only [Bool.and_eq_true, beq_iff_eq] at h
    obtain ⟨⟨⟨hmin, hmax⟩, hterm⟩, htargets⟩ := h
    have hspan := hx.span_eq hy hmin hmax
    have hmoves : x.moves = y.moves := by
      by_cases hs : x.span = 0
      · rw [if_pos hs, beq_iff_eq] at htargets
        rcases hx.single hs with hxm | ⟨t, hxm⟩ <;>
          rcases hy.single (hspan.symm.trans hs) with hym | ⟨t', hym⟩ <;>
          rw [hxm, hym] at htargets ⊢
        · cases htargets
        · cases htargets
        · rw [show t = t' from some.inj htargets, hmin]
      · rw [if_neg hs, beq_iff_eq] at htargets
        exact htargets
    exact hx.ext hy hterm hmoves hmax
  · rintro rfl
    unfold State.onflyEqual
    simp

/-! ## The store -/

/-- A used state, or a free one with the next free state. -/
inductive Cell
  | used (s : State)
  | free (next : Nat)
  deriving DecidableEq, Repr

/-- The state in a used cell. -/
def Cell.state? : Cell → Option State
  | .used s => some s
  | .free _ => none

/-- The link in a free cell. -/
def Cell.next? : Cell → Option Nat
  | .used _ => none
  | .free p => some p

/-- The memory pool without its bytes: where the blocks of the states begin, and the freed
    blocks with their lengths, the last one first. -/
structure Pool where
  size : Nat
  places : List (Nat × Nat)
  freed : List (Nat × Nat)
  deriving DecidableEq, Repr

variable (pool : Pool)

/-- A freed block of the same length, or the end of the pool.  No block of a state is longer
    than those the pool has free lists for. -/
def Pool.alloc (request : Nat) : Pool × Nat :=
  match pool.freed.find? (fun b => b.1 == request) with
  | some b => ({ pool with freed := pool.freed.erase b }, b.2)
  | none => ({ pool with size := pool.size + request }, pool.size)

/-- `sfree`: cuts the pool at its end, or keeps the block for later. -/
def Pool.sfree (pos len : Nat) : Pool :=
  if pos + len = pool.size then { pool with size := pos }
  else { pool with freed := (len, pos) :: pool.freed }

/-- `getpos` of state `i`; a new state has position 0. -/
def Pool.getpos (i : Nat) : Nat := (pool.places.find? (fun b => b.1 == i)).elim 0 Prod.snd

/-- `setpos`: throws for an offset that the field cannot hold. -/
def Pool.setpos (P : StateTp) (i tpos : Nat) : Option Pool :=
  if P.maxPos ≤ tpos then none else some { pool with places := (i, tpos) :: pool.places }

/-- The block of a state changes its length: the first one is allocated, one at the end of the
    pool grows in place, and any other is moved (`insert`). -/
def Pool.rewrite (P : StateTp) (i old new : Nat) : Option Pool :=
  if old = new then some pool
  else if old = 0 then (pool.alloc new).1.setpos P i (pool.alloc new).2
  else if pool.size = pool.getpos i + old then some { pool with size := pool.getpos i + new }
  else ((pool.alloc new).1.sfree (pool.getpos i) old).setpos P i (pool.alloc new).2

/-- The old block of state `i` is freed, if it has one. -/
def Pool.release (i old : Nat) : Pool :=
  if old = 0 then pool else pool.sfree (pool.getpos i) old

/-- The states of an automaton, its free list and the pool of its transitions. -/
structure Store where
  cells : List Cell
  firstFreeState : Nat
  numFreeStates : Nat
  pool : Pool
  deriving DecidableEq, Repr

/-- The state with number `i`, if that is in use. -/
def Store.state? (A : Store) (i : Nat) : Option State := A.cells[i]?.bind Cell.state?

/-- `total_states` -/
def Store.totalStates (A : Store) : Nat := A.cells.length

/-- `num_used_states` -/
def Store.numUsedStates (A : Store) : Nat := A.cells.length - A.numFreeStates

/-- The automaton with the initial state only. -/
def Store.init (P : StateTp) : Store where
  cells := [.used State.new]
  firstFreeState := P.nilState
  numFreeStates := 0
  pool := ⟨0, [], []⟩

/-- `states[i]` written. -/
def Store.put (A : Store) (i : Nat) (s : State) : Store :=
  { A with cells := A.cells.set i (.used s) }

/-- `new_state`: the head of the free list, or a new cell. -/
def Store.newState (P : StateTp) (A : Store) : Option (Store × Nat) :=
  if P.nilState = A.firstFreeState then
    if P.maxState ≤ A.cells.length then none
    else some ({ A with cells := A.cells ++ [.used State.new] }, A.cells.length)
  else
    (A.cells[A.firstFreeState]?.bind Cell.next?).map (fun p =>
      ({ A with cells := A.cells.set A.firstFreeState (.used State.new), firstFreeState := p
                numFreeStates := A.numFreeStates - 1 }, A.firstFreeState))

/-- `del_state`: the cell becomes the head of the free list. -/
def Store.delState (P : StateTp) (A : Store) (i : Nat) : Option Store :=
  (A.state? i).map (fun s =>
    { cells := A.cells.set i (.free A.firstFreeState), firstFreeState := i,
      numFreeStates := A.numFreeStates + 1, pool := A.pool.release i (s.blockLen P) })

/-- A state is written together with its block. -/
def Store.rewrite (P : StateTp) (A : Store) (i : Nat) (old new : State) : Option Store :=
  (A.pool.rewrite P i (old.blockLen P) (new.blockLen P)).map (fun pool =>
    { A.put i new with pool := pool })

/-- `add_move_imp`, with the target that was there before. -/
def Store.addMoveImp (P : StateTp) (A : Store) (source t ch : Nat) (overwrite : Bool) :
    Option (Store × Option Nat) :=
  (A.state? source).bind (fun s =>
    (A.rewrite P source s (s.addMove P t ch overwrite).1).map (fun A =>
      (A, (s.addMove P t ch overwrite).2)))

/-- `set_move`, which returns the old target. -/
def Store.setMove (P : StateTp) (A : Store) (source t ch : Nat) : Option (Store × Option Nat) :=
  A.addMoveImp P source t ch true

/-- `add_move_checked` throws if there is such a transition. -/
def Store.addMoveChecked (P : StateTp) (A : Store) (source t ch : Nat) : Option Store :=
  (A.addMoveImp P source t ch false).bind (fun r => if r.2 = none then some r.1 else none)

/-- `set_term_bit` and `clear_term_bit`. -/
def Store.setTerm (A : Store) (i : Nat) (term : Bool) : Option Store :=
  (A.state? i).map (fun s => A.put i { s with term := term })

/-- `add_all_move`: a state without transitions gets a whole list. -/
def Store.addAllMove (P : StateTp) (A : Store) (i : Nat) (moves : List (Nat × Nat)) :
    Option Store :=
  (A.state? i).bind (fun s => A.rewrite P i s (s.addAllMove P moves))

/-- `del_move`: the block is released before the other transitions are put back. -/
def Store.delMove (P : StateTp) (A : Store) (i ch : Nat) : Option Store :=
  (A.state? i).bind (fun s =>
    { A with pool := A.pool.release i (s.blockLen P) }.rewrite P i s.delAllMove (s.delMove P ch))

/-- `resize_states` throws from `max_state` on. -/
def Store.resizeStates (P : StateTp) (A : Store) (newStatesNum : Nat) : Option Store :=
  if P.maxState ≤ newStatesNum then none
  else some { A with cells := A.cells.take newStatesNum ++
                replicate (newStatesNum - A.cells.length) (.used State.new) }

/-! ## What the operations do to the states -/

/-- The links of the free states. -/
def nexts (cells : List Cell) : List Nat := cells.map (fun c => c.next?.getD 0)

/-- Used states are well-formed, and the free list has every free state once. -/
structure StoreOk (P : StateTp) (A : Store) : Prop where
  ok : ∀ i s, A.state? i = some s → Ok P s
  bound : A.cells.length ≤ P.maxState
  free : ∃ l, Chain P.nilState (nexts A.cells) A.firstFreeState l ∧ l.Nodup ∧
    l.length = A.numFreeStates ∧ ∀ i, i ∈ l ↔ ∃ p, A.cells[i]? = some (.free p)

/-- The part of it about the free list. -/
structure FreeOk (P : StateTp) (A : Store) : Prop where
  bound : A.cells.length ≤ P.maxState
  free : ∃ l, Chain P.nilState (nexts A.cells) A.firstFreeState l ∧ l.Nodup ∧
    l.length = A.numFreeStates ∧ ∀ i, i ∈ l ↔ ∃ p, A.cells[i]? = some (.free p)

variable {A A' : Store}

theorem StoreOk.freeOk (h : StoreOk P A) : FreeOk P A := ⟨h.bound, h.free⟩

theorem state?_eq_some_iff : A.state? i = some s ↔ A.cells[i]? = some (.used s) := by
  unfold Store.state?
  rw [bind_eq_some_iff]
  constructor
  · rintro ⟨c, hc, hs⟩
    cases c with
    | used s' => rw [hc, some.inj hs]
    | free p => cases hs
  · intro h
    exact ⟨_, h, rfl⟩

/-- A used number is below the number of cells. -/
theorem state?_lt (h : A.state? i = some s) : i < A.cells.length :=
  (List.getElem_of_getElem? (state?_eq_some_iff.mp h)).1

theorem state?_set (hi : i < A.cells.length) (c : Cell) (p n : Nat) (pool : Pool) :
    (Store.mk (A.cells.set i c) p n pool).state? = update A.state? i c.state? := by
  funext j
  show (A.cells.set i c)[j]?.bind Cell.state? = _
  by_cases hij : j = i
  · subst hij
    rw [getElem?_set_self hi, update_self]
    rfl
  · rw [getElem?_set_ne (Ne.symm hij), update_of_ne hij]
    rfl

/-- Writing a state changes that state only. -/
theorem put_state? (h : A.state? i = some s') (s : State) :
    (A.put i s).state? = update A.state? i (some s) :=
  state?_set (state?_lt h) _ _ _ _

theorem maxState_lt_nilState (P : StateTp) : P.maxState < P.nilState := by
  cases P <;> decide

/-- Well-formed states stay so when one is exchanged. -/
theorem ok_update {f : Nat → Option State} (h : ∀ i s, f i = some s → Ok P s) {x : Option State}
    (hx : ∀ s, x = some s → Ok P s) : ∀ j s, update f i x j = some s → Ok P s := by
  intro j s hs
  by_cases hj : j = i
  · rw [hj, update_self] at hs
    exact hx s hs
  · rw [update_of_ne hj] at hs
    exact h j s hs

/-- The links after a cell is written. -/
theorem nexts_set (cells : List Cell) (i : Nat) (c : Cell) :
    nexts (cells.set i c) = (nexts cells).set i (c.next?.getD 0) :=
  map_set

theorem free_set (hi : i < A.cells.length) (c : Cell) (j : Nat) :
    (∃ p, (A.cells.set i c)[j]? = some (.free p)) ↔
      if i = j then ∃ p, c = .free p else ∃ p, A.cells[j]? = some (.free p) := by
  by_cases hj : i = j
  · subst hj
    rw [getElem?_set_self hi, if_pos rfl]
    exact exists_congr (fun p => some_inj)
  · rw [getElem?_set_ne hj, if_neg hj]

theorem set_length_le (h : FreeOk P A) (i : Nat) (c : Cell) :
    (A.cells.set i c).length ≤ P.maxState := by
  rw [length_set]
  exact h.bound

/-- Writing a used state leaves the free list alone. -/
theorem put_free (h : FreeOk P A) (hi : A.state? i = some s') (s : State) :
    FreeOk P (A.put i s) := by
  refine ⟨set_length_le h i _, ?_⟩
  obtain ⟨l, hl, hnodup, hlen, hmem⟩ := h.free
  have hused : ∀ p, A.cells[i]? ≠ some (.free p) := by
    intro p hp
    rw [state?_eq_some_iff.mp hi] at hp
    cases hp
  refine ⟨l, ?_, hnodup, hlen, fun j => ?_⟩
  · show Chain P.nilState (nexts (A.cells.set i _)) A.firstFreeState l
    rw [nexts_set]
    exact hl.set_of_not_mem (fun hil => Exists.elim ((hmem i).mp hil) hused)
  · refine (hmem j).trans (Iff.trans ?_ (free_set (state?_lt hi) _ j).symm)
    split
    · rename_i hj
      subst hj
      exact ⟨fun ⟨p, hp⟩ => absurd hp (hused p), fun ⟨p, hp⟩ => nomatch hp⟩
    · exact Iff.rfl

/-- Writing a well-formed state keeps the store well formed. -/
theorem put_ok (h : StoreOk P A) (hi : A.state? i = some s') (hs : Ok P s) :
    StoreOk P (A.put i s) where
  ok := by
    rw [put_state? hi]
    exact ok_update h.ok (fun x hx => some.inj hx ▸ hs)
  bound := (put_free h.freeOk hi s).bound
  free := (put_free h.freeOk hi s).free

@[simp] theorem put_numUsed (A : Store) (i : Nat) (s : State) :
    (A.put i s).numUsedStates = A.numUsedStates := by
  unfold Store.numUsedStates
  rw [show (A.put i s).cells.length = A.cells.length from length_set]
  rfl

@[simp] theorem put_totalStates (A : Store) (i : Nat) (s : State) :
    (A.put i s).totalStates = A.totalStates :=
  length_set

/-- A state is written, and its block finds a place. -/
theorem rewrite_spec (h : StoreOk P A) (hi : A.state? i = some s) (hs' : Ok P s') {pool : Pool}
    (hpool : A.pool.rewrite P i (s.blockLen P) (s'.blockLen P) = some pool) :
    ∃ A', A.rewrite P i s s' = some A' ∧ StoreOk P A' ∧
      A'.state? = update A.state? i (some s') ∧ A'.numUsedStates = A.numUsedStates ∧
      A'.totalStates = A.totalStates ∧ A'.pool = pool := by
  have hok := put_ok h hi hs'
  refine ⟨{ A.put i s' with pool := pool }, ?_, ⟨hok.ok, hok.bound, hok.free⟩, put_state? hi s',
    put_numUsed A i s', put_totalStates A i s', rfl⟩
  rw [Store.rewrite, hpool]
  rfl

/-- A new cell at the end holds the next number. -/
theorem state?_append (A : Store) (s : State) :
    ({ A with cells := A.cells ++ [.used s] } : Store).state? =
      update A.state? A.cells.length (some s) := by
  funext j
  show (A.cells ++ [.used s])[j]?.bind Cell.state? = _
  by_cases hj : j = A.cells.length
  · rw [hj, getElem?_concat_length, update_self]
    rfl
  · rw [update_of_ne hj, getElem?_append]
    split
    · rfl
    · unfold Store.state?
      rw [getElem?_eq_none (by omega : A.cells.length ≤ j), getElem?_eq_none]
      rw [length_singleton]
      omega

/-- There are no more free states than cells. -/
theorem FreeOk.numFree_le (h : FreeOk P A) : A.numFreeStates ≤ A.cells.length := by
  obtain ⟨l, hl, hnodup, hlen, -⟩ := h.free
  have hle := hl.length_le hnodup
  unfold nexts at hle
  rw [length_map] at hle
  omega

/-- An empty free list has no free states. -/
theorem FreeOk.numFree_eq_zero (h : FreeOk P A) (hnil : A.firstFreeState = P.nilState) :
    A.numFreeStates = 0 := by
  obtain ⟨l, hl, -, hlen, -⟩ := h.free
  cases l with
  | nil => exact hlen.symm
  | cons x l => exact absurd (hl.1.symm.trans hnil) hl.2.1

/-- New states at the end leave the free list alone. -/
theorem FreeOk.append (h : FreeOk P A) {k : Nat} (hle : A.cells.length + k ≤ P.maxState) :
    FreeOk P { A with cells := A.cells ++ replicate k (.used State.new) } := by
  obtain ⟨l, hl, hnodup, hlen, hmem⟩ := h.free
  refine ⟨?_, l, ?_, hnodup, hlen, fun i => (hmem i).trans (exists_congr (fun p => ?_))⟩
  · rw [length_append, length_replicate]
    exact hle
  · unfold nexts
    rw [map_append]
    exact hl.append _
  by_cases hi : i < A.cells.length
  · rw [getElem?_append_left hi]
  · have hge := not_lt.mp hi
    rw [getElem?_append_right hge, getElem?_eq_none hge, getElem?_replicate]
    split <;> exact ⟨nofun, nofun⟩

/-- The first free state is taken from the free list. -/
theorem FreeOk.reuse (h : FreeOk P A) (hne : A.firstFreeState ≠ P.nilState) :
    ∃ p, A.cells[A.firstFreeState]? = some (.free p) ∧ 0 < A.numFreeStates ∧
      FreeOk P { A with cells := A.cells.set A.firstFreeState (.used State.new), firstFreeState := p
                        numFreeStates := A.numFreeStates - 1 } := by
  obtain ⟨l, hl, hnodup, hlen, hmem⟩ := h.free
  cases l with
  | nil => exact absurd hl hne
  | cons x l =>
    obtain ⟨rfl, -, q, hq, hrest⟩ := hl
    obtain ⟨p, hp⟩ := (hmem _).mp mem_cons_self
    obtain rfl : p = q := by
      unfold nexts at hq
      rw [getElem?_map, hp] at hq
      exact some.inj hq
    obtain ⟨hxl, hnodup⟩ := nodup_cons.mp hnodup
    rw [length_cons] at hlen
    refine ⟨p, hp, by omega, set_length_le h _ _, l, ?_, hnodup, by dsimp only; omega, fun i => ?_⟩
    · rw [nexts_set]
      exact hrest.set_of_not_mem hxl
    refine Iff.trans ?_ (free_set (List.getElem_of_getElem? hp).1 _ i).symm
    split
    · rename_i hi
      subst hi
      exact ⟨fun hil => absurd hil hxl, fun ⟨r, hr⟩ => nomatch hr⟩
    · rename_i hi
      rw [← hmem i, mem_cons]
      exact (or_iff_right (Ne.symm hi)).symm

/-- **NEW_STATE** returns an unused number while there is room. -/
theorem newState_free (h : FreeOk P A) (hroom : A.numUsedStates < P.maxState) :
    ∃ A' i, A.newState P = some (A', i) ∧ FreeOk P A' ∧ A.state? i = none ∧
      A'.state? = update A.state? i (some State.new) ∧
      A'.numUsedStates = A.numUsedStates + 1 ∧ A.totalStates ≤ A'.totalStates ∧
      i < A'.totalStates := by
  have hfree := h.numFree_le
  unfold Store.newState
  by_cases hnil : P.nilState = A.firstFreeState
  · -- no free state: the states grow
    have hzero := h.numFree_eq_zero hnil.symm
    have hlt : A.cells.length < P.maxState := by
      unfold Store.numUsedStates at hroom
      omega
    have hlen : (A.cells ++ [Cell.used State.new]).length = A.cells.length + 1 := length_append
    rw [if_pos hnil, if_neg hlt.not_ge]
    refine ⟨_, _, rfl, h.append (k := 1) hlt, ?_, state?_append A _, ?_, ?_, ?_⟩
    · unfold Store.state?
      rw [getElem?_eq_none le_rfl]
      rfl
    · show (A.cells ++ [_]).length - A.numFreeStates = A.cells.length - A.numFreeStates + 1
      omega
    · exact (le_succ _).trans_eq hlen.symm
    · exact (lt_succ_self _).trans_eq hlen.symm
  · obtain ⟨p, hp, hpos, hok⟩ := h.reuse (Ne.symm hnil)
    have hlt := (List.getElem_of_getElem? hp).1
    have hlen : (A.cells.set A.firstFreeState (Cell.used State.new)).length = A.cells.length :=
      length_set
    rw [if_neg hnil, hp]
    refine ⟨_, _, rfl, hok, ?_, state?_set hlt _ _ _ _, ?_, hlen.ge, hlt.trans_eq hlen.symm⟩
    · unfold Store.state?
      rw [hp]
      rfl
    · show (A.cells.set _ _).length - (A.numFreeStates - 1) = A.cells.length - A.numFreeStates + 1
      omega

/-- **NEW_STATE** takes an unused state. -/
theorem newState_spec (h : StoreOk P A) (hroom : A.numUsedStates < P.maxState) :
    ∃ A' i, A.newState P = some (A', i) ∧ StoreOk P A' ∧ A.state? i = none ∧
      A'.state? = update A.state? i (some State.new) ∧
      A'.numUsedStates = A.numUsedStates + 1 ∧ A.totalStates ≤ A'.totalStates ∧
      i < A'.totalStates := by
  obtain ⟨A', i, hnew, hfree, hi, hstates, hrest⟩ := newState_free h.freeOk hroom
  refine ⟨A', i, hnew, ⟨?_, hfree.bound, hfree.free⟩, hi, hstates, hrest⟩
  rw [hstates]
  exact ok_update h.ok (fun s hs => some.inj hs ▸ new_ok P)

/-- A new state has no block in the pool. -/
theorem newState_pool {r : Store × Nat} (h : A.newState P = some r) : r.1.pool = A.pool := by
  unfold Store.newState at h
  split at h
  · split at h
    · cases h
    · rw [← some.inj h]
  · obtain ⟨p, -, rfl⟩ := map_eq_some_iff.mp h
    rfl

/-- **DEL_STATE** frees the state and its block, and nothing else. -/
theorem delState_free (h : FreeOk P A) (hi : A.state? i = some s) :
    ∃ A', A.delState P i = some A' ∧ FreeOk P A' ∧
      A'.state? = update A.state? i none ∧
      A'.numUsedStates + 1 = A.numUsedStates ∧ A'.totalStates = A.totalStates ∧
      A'.pool = A.pool.release i (s.blockLen P) := by
  obtain ⟨l, hl, hnodup, hlen, hmem⟩ := h.free
  have hlt := state?_lt hi
  have hil : i ∉ l := by
    intro hil
    obtain ⟨p, hp⟩ := (hmem i).mp hil
    rw [state?_eq_some_iff.mp hi] at hp
    cases hp
  have hinil : i ≠ P.nilState := by
    have := h.bound
    have := maxState_lt_nilState P
    omega
  have hchain : Chain P.nilState (nexts (A.cells.set i (.free A.firstFreeState))) i (i :: l) := by
    rw [nexts_set]
    refine hl.cons hil hinil ?_
    unfold nexts
    rw [length_map]
    exact hlt
  -- the free list has become longer by one, and still fits
  have hnodup' : (i :: l).Nodup := nodup_cons.mpr ⟨hil, hnodup⟩
  have hle : (i :: l).length ≤ A.cells.length := by
    have := hchain.length_le hnodup'
    unfold nexts at this
    rwa [length_map, length_set] at this
  unfold Store.delState
  rw [hi]
  refine ⟨_, rfl, ?_, state?_set hlt _ _ _ _, ?_, length_set, rfl⟩
  · refine ⟨set_length_le h i _, i :: l, hchain, hnodup', ?_, fun j => ?_⟩
    · show l.length + 1 = A.numFreeStates + 1
      rw [hlen]
    · refine Iff.trans ?_ (free_set hlt _ j).symm
      rw [mem_cons, hmem j]
      split
      · rename_i hj
        exact ⟨fun _ => ⟨_, rfl⟩, fun _ => .inl hj.symm⟩
      · rename_i hj
        exact or_iff_right (Ne.symm hj)
  · show (A.cells.set i _).length - (A.numFreeStates + 1) + 1 = A.cells.length - A.numFreeStates
    rw [length_set]
    rw [length_cons] at hle
    omega

/-- **DEL_STATE** puts a state on the free list. -/
theorem delState_spec (h : StoreOk P A) (hi : A.state? i = some s) :
    ∃ A', A.delState P i = some A' ∧ StoreOk P A' ∧
      A'.state? = update A.state? i none ∧
      A'.numUsedStates + 1 = A.numUsedStates ∧ A'.totalStates = A.totalStates ∧
      A'.pool = A.pool.release i (s.blockLen P) := by
  obtain ⟨A', hdel, hfree, hstates, hrest⟩ := delState_free h.freeOk hi
  refine ⟨A', hdel, ⟨?_, hfree.bound, hfree.free⟩, hstates, hrest⟩
  rw [hstates]
  exact ok_update h.ok (fun s hs => by cases hs)

/-- A new automaton is well formed. -/
theorem init_ok (P : StateTp) : StoreOk P (Store.init P) where
  ok := fun i s hs => by
    cases i with
    | zero =>
      rw [← some.inj hs]
      exact new_ok P
    | succ i => cases hs
  bound := by
    cases P <;> decide
  free := ⟨[], rfl, nodup_nil, rfl, fun i => by
    refine ⟨fun hi => absurd hi not_mem_nil, ?_⟩
    rintro ⟨p, hp⟩
    cases i with
    | zero => cases hp
    | succ i => cases hp⟩

/-! ## The automaton of a store -/

/-- Final states and `state_move`. -/
def Store.dfa (P : StateTp) (A : Store) : Dfa.Pdfa Nat Nat where
  final := fun i => (A.state? i).elim false State.term
  next := fun i ch => (A.state? i).bind (fun s => s.move P ch)

theorem dfa_final (hi : A.state? i = some s) : (A.dfa P).final i = s.term := by
  show (A.state? i).elim false State.term = s.term
  rw [hi]
  rfl

/-- A well-formed state moves by its list of transitions. -/
theorem StoreOk.dfa_next (h : StoreOk P A) (hi : A.state? i = some s) :
    (A.dfa P).next i = target s.moves := by
  funext ch
  show (A.state? i).bind _ = _
  rw [hi]
  exact (h.ok i s hi).move_eq ch

/-- A free state has no transitions. -/
theorem dfa_next_none (hi : A.state? i = none) (ch : Nat) : (A.dfa P).next i ch = none := by
  show (A.state? i).bind _ = none
  rw [hi]
  rfl

theorem dfa_final_congr (h : A'.state? i = A.state? j) : (A'.dfa P).final i = (A.dfa P).final j :=
  congrArg (fun o : Option State => o.elim false State.term) h

theorem dfa_next_congr (h : A'.state? i = A.state? j) : (A'.dfa P).next i = (A.dfa P).next j :=
  congrArg (fun (o : Option State) ch => o.bind (fun s => s.move P ch)) h

/-- The range of the state is exactly that of its transitions. -/
def Exact (P : StateTp) (s : State) : Prop := s = canonical P s.term s.moves

/-- The canonical form has an exact range. -/
theorem canonical_exact (P : StateTp) (term : Bool) (l : List (Nat × Nat)) :
    Exact P (canonical P term l) := by
  show canonical P term l = _
  rw [canonical_term, canonical_moves]

/-- Replacing a target keeps the range exact. -/
theorem Exact.setMoves_replaceMove (h : Exact P s) (ch t : Nat) :
    Exact P (s.setMoves (replaceMove s.moves ch t)) := by
  have heq : s.setMoves (replaceMove s.moves ch t) =
      canonical P s.term (replaceMove s.moves ch t) := by
    rw [← canonical_replaceMove, ← h]
  rw [heq]
  exact canonical_exact P _ _

theorem Exact.setTerm (h : Exact P s) (term : Bool) : Exact P { s with term := term } := by
  obtain ⟨minch, span, b, moves⟩ := s
  rcases moves with _ | ⟨m, _ | ⟨m', l⟩⟩
  all_goals
    cases h
    rfl

/-- States with exact ranges that behave the same have the same stored form. -/
theorem eq_of_behaviour (hx : Ok P x) (hy : Ok P y) (hxe : Exact P x) (hye : Exact P y)
    (hterm : x.term = y.term) (hmoves : target x.moves = target y.moves) : x = y := by
  have hlist : x.moves = y.moves :=
    ascending_ext hx.ascending hy.ascending (fun ch => congrFun hmoves ch)
  rw [hxe, hye, hterm, hlist]

/-- **SET_MOVE** of an existing transition. -/
theorem setMove_spec (h : StoreOk P A) (hi : A.state? i = some s)
    (hold : target s.moves ch = some old) (t : Nat) :
    ∃ A', A.setMove P i t ch = some (A', some old) ∧ StoreOk P A' ∧
      A'.state? = update A.state? i (some (s.setMoves (replaceMove s.moves ch t))) ∧
      A'.numUsedStates = A.numUsedStates ∧ A'.totalStates = A.totalStates ∧ A'.pool = A.pool := by
  have hlen : s.blockLen P = (s.setMoves (replaceMove s.moves ch t)).blockLen P := by
    show _ = if s.span = 0 then 0 else (_ + (replaceMove s.moves ch t).length * _ + _) / _ * _
    unfold replaceMove
    rw [length_map]
    rfl
  have hpool : A.pool.rewrite P i _ _ = some A.pool := if_pos hlen
  obtain ⟨A', hrun, hrest⟩ := rewrite_spec h hi (replaceMove_ok (h.ok i s hi) ch t) hpool
  refine ⟨A', ?_, hrest⟩
  unfold Store.setMove Store.addMoveImp
  rw [hi, bind_some, addMove_old (h.ok i s hi) hold t, hrun]
  rfl

/-- **SET_TERM_BIT** and **CLEAR_TERM_BIT**. -/
theorem setTerm_spec (h : StoreOk P A) (hi : A.state? i = some s) (term : Bool) :
    ∃ A', A.setTerm i term = some A' ∧ StoreOk P A' ∧
      A'.state? = update A.state? i (some { s with term := term }) ∧
      A'.numUsedStates = A.numUsedStates ∧ A'.totalStates = A.totalStates ∧ A'.pool = A.pool := by
  have hok := h.ok i s hi
  refine ⟨A.put i { s with term := term }, ?_, put_ok h hi ?_, put_state? hi _, put_numUsed A _ _,
    put_totalStates A _ _, rfl⟩
  · unfold Store.setTerm
    rw [hi, map_some]
  · exact { ascending := hok.ascending, letters := hok.letters, empty := hok.empty,
            single := hok.single, first := hok.first, range := hok.range, blocks := hok.blocks,
            exact := hok.exact }

/-- The final bit of a new state is written. -/
theorem setFinal_spec (h : StoreOk P A) (b : Bool) {l : List (Nat × Nat)}
    (hi : A.state? i = some (canonical P false l)) :
    ∃ A', (if b then A.setTerm i true else some A) = some A' ∧ StoreOk P A' ∧
      A'.totalStates = A.totalStates ∧ A'.pool = A.pool ∧
      A'.state? = update A.state? i (some (canonical P b l)) := by
  cases b with
  | false =>
    refine ⟨A, rfl, h, rfl, rfl, ?_⟩
    rw [← hi, update_eq_self]
  | true =>
    obtain ⟨A', hset, hok, hst, -, htotal, hpool⟩ := setTerm_spec h hi true
    refine ⟨A', hset, hok, htotal, hpool, hst.trans ?_⟩
    rw [show ({ canonical P false l with term := true } : State) = canonical P true l by
      rcases l with _ | ⟨m, _ | ⟨m', l⟩⟩ <;> rfl]

/-! ## Room in the pool -/

/-- The length of the block for the transitions of a state. -/
def StateTp.blockLen (P : StateTp) (l : List (Nat × Nat)) : Nat := (canonical P false l).blockLen P

/-- A block for the transitions can be put at the place `n`. -/
def StateTp.Placeable (P : StateTp) (n : Nat) (l : List (Nat × Nat)) : Prop :=
  P.blockLen l ≠ 0 → n < P.maxPos

theorem canonical_blockLen (P : StateTp) (term : Bool) (l : List (Nat × Nat)) :
    (canonical P term l).blockLen P = P.blockLen l := by
  rcases l with _ | ⟨m, _ | ⟨m', l⟩⟩ <;> rfl

/-- A wider range has no smaller span. -/
theorem spanOf_mono {lo hi lo' hi' : Nat} (hlo : lo ≤ lo') (hhi : hi' ≤ hi) :
    P.spanOf lo' hi' ≤ P.spanOf lo hi := by
  unfold StateTp.spanOf
  split <;> omega

theorem bmRealBits_mono {bits bits' : Nat} (h : bits' ≤ bits) :
    P.bmRealBits bits' ≤ P.bmRealBits bits := by
  unfold StateTp.bmRealBits
  split <;> split <;> omega

/-- A wider range with more transitions takes no smaller block. -/
theorem State.blockLen_mono (hspan : x.span ≤ y.span) (hlen : x.moves.length ≤ y.moves.length) :
    x.blockLen P ≤ y.blockLen P := by
  unfold State.blockLen
  split
  · exact zero_le _
  have hrlen : x.rlen P ≤ y.rlen P := by
    unfold State.rlen
    split <;> omega
  rw [if_neg (by omega)]
  gcongr
  exact bmRealBits_mono hrlen

/-- Fewer letters have no greater span. -/
theorem canonical_span_le {l' : List (Nat × Nat)} (hl : Ascending l)
    (hsub : (l'.map Prod.fst).Sublist (l.map Prod.fst)) :
    (canonical P false l').span ≤ (canonical P false l).span := by
  have hlen := hsub.length_le
  rw [length_map, length_map] at hlen
  rcases l' with _ | ⟨a, _ | ⟨a', l'⟩⟩
  · exact zero_le _
  · exact zero_le _
  rcases l with _ | ⟨m, _ | ⟨m', l⟩⟩
  · simp at hlen
  · simp at hlen
  obtain ⟨hm, hrest⟩ := pairwise_cons.mp hl
  have hbetween : ∀ c ∈ (a :: a' :: l').map Prod.fst, m.1 ≤ c ∧ c ≤ ((m' :: l).getLastD m).1 := by
    intro c hc
    obtain ⟨e, he, rfl⟩ := mem_map.mp (hsub.subset hc)
    have hlast := (le_getLastD hrest mem_cons_self m).2
    rcases mem_cons.mp he with rfl | he
    · exact ⟨le_rfl, (hm _ hlast).le⟩
    · exact ⟨(hm e he).le, (le_getLastD hrest he m).1⟩
  have hend : (a' :: l').getLastD a ∈ a :: a' :: l' := by
    rw [getLastD_cons]
    exact mem_cons_of_mem _ getLastD_mem_cons
  exact spanOf_mono (hbetween _ (mem_map_of_mem mem_cons_self)).1
    (hbetween _ (mem_map_of_mem hend)).2

/-- **FEWER LETTERS** need no longer block. -/
theorem blockLen_le {l' : List (Nat × Nat)} (hl : Ascending l)
    (hsub : (l'.map Prod.fst).Sublist (l.map Prod.fst)) : P.blockLen l' ≤ P.blockLen l := by
  have hlen := hsub.length_le
  rw [length_map, length_map] at hlen
  refine State.blockLen_mono (canonical_span_le hl hsub) ?_
  rwa [canonical_moves, canonical_moves]

/-- The targets do not matter for the length of a block. -/
theorem blockLen_congr {l' : List (Nat × Nat)} (hl : Ascending l)
    (hsame : l'.map Prod.fst = l.map Prod.fst) : P.blockLen l' = P.blockLen l := by
  have hl' : Ascending l' := pairwise_map.mp (hsame ▸ pairwise_map.mpr hl)
  exact le_antisymm (blockLen_le hl (hsame ▸ Sublist.refl _))
    (blockLen_le hl' (hsame ▸ Sublist.refl _))

/-- The bytes of the first `n` blocks. -/
def bytes (len : Nat → Nat) (n : Nat) : Nat := ((range n).map len).sum

theorem bytes_succ (len : Nat → Nat) (n : Nat) : bytes len (n + 1) = bytes len n + len n := by
  unfold bytes
  rw [range_succ, map_append, sum_append_nat]
  rfl

/-- Blocks of these lengths, one behind the other, begin at places that a state can address. -/
def StateTp.Addressable (P : StateTp) (len : Nat → Nat) (n : Nat) : Prop :=
  ∀ i < n, len i ≠ 0 → bytes len i < P.maxPos

/-- Fewer and smaller blocks take no more bytes. -/
theorem bytes_le_bytes {len len' : Nat → Nat} {k : Nat} (hkn : k ≤ n)
    (hle : ∀ i < n, len' i ≤ len i) : bytes len' k ≤ bytes len n := by
  induction n, hkn using Nat.le_induction with
  | base =>
    induction k with
    | zero => exact le_rfl
    | succ k ih =>
      rw [bytes_succ, bytes_succ]
      exact Nat.add_le_add (ih (fun i hi => hle i (hi.trans (lt_add_one k)))) (hle k (lt_add_one k))
  | succ n _ ih =>
    rw [bytes_succ]
    exact le_add_right (ih (fun i hi => hle i (hi.trans (lt_add_one n))))

/-- Blocks that are no longer than others, which fill no more than the places there are. -/
theorem addressable_of_le {len len' : Nat → Nat} (hle : ∀ i < n, len' i ≤ len i)
    (hfit : bytes len n ≤ P.maxPos) : P.Addressable len' n := by
  intro i hi hpos
  have hall := bytes_le_bytes (Nat.succ_le_of_lt hi) hle
  rw [bytes_succ] at hall
  omega

/-- Nothing has been freed: the next block goes to the end of the pool, at `n`. -/
def Filled (A : Store) (n : Nat) : Prop := A.pool.freed = [] ∧ A.pool.size = n

/-- The first block of a state goes to the end of a pool in which nothing has been freed. -/
theorem Pool.rewrite_new {pool : Pool} (hfreed : pool.freed = []) (i new : Nat) :
    ((new ≠ 0 → pool.size < P.maxPos) ∧ ∃ pool', pool.rewrite P i 0 new = some pool' ∧
        pool'.freed = [] ∧ pool'.size = pool.size + new) ∨
      ¬ (new ≠ 0 → pool.size < P.maxPos) ∧ pool.rewrite P i 0 new = none := by
  by_cases hzero : new = 0
  · subst hzero
    exact .inl ⟨fun h => absurd rfl h, pool, if_pos rfl, hfreed, rfl⟩
  have hend : pool.alloc new = ({ pool with size := pool.size + new }, pool.size) := by
    have hnone : pool.freed.find? (fun b => b.1 == new) = none := by
      rw [hfreed]
      rfl
    rw [Pool.alloc, hnone]
  rw [Pool.rewrite, if_neg (Ne.symm hzero), if_pos rfl, hend, Pool.setpos]
  rcases lt_or_ge pool.size P.maxPos with hfit | hfull
  · rw [if_neg hfit.not_ge]
    exact .inl ⟨fun _ => hfit, _, rfl, hfreed, rfl⟩
  · exact .inr ⟨fun h => absurd (h hzero) hfull.not_gt, if_pos hfull⟩

/-- **ADD_ALL_MOVE** to a new state, unless the end of the pool cannot be addressed. -/
theorem addAllMove_new (h : StoreOk P A) (term : Bool)
    (hi : A.state? i = some (canonical P term [])) (hl : Ascending l)
    (hlt : ∀ m ∈ l, m.1 < P.sigma) (hpool : Filled A n) :
    (P.Placeable n l ∧ ∃ A', A.addAllMove P i l = some A' ∧ StoreOk P A' ∧
        A'.totalStates = A.totalStates ∧ Filled A' (n + P.blockLen l) ∧
        A'.state? = update A.state? i (some (canonical P term l))) ∨
      ¬ P.Placeable n l ∧ A.addAllMove P i l = none := by
  obtain ⟨hfreed, rfl⟩ := hpool
  have hrun : A.addAllMove P i l = A.rewrite P i (canonical P term []) (canonical P term l) := by
    rw [Store.addAllMove, hi, bind_some, addAllMove_eq]
  have hzero : (canonical P term []).blockLen P = 0 := rfl
  rcases Pool.rewrite_new hfreed i (P.blockLen l) with ⟨hfit, pool, hpool, hrest⟩ | ⟨hfull, hnone⟩
  · rw [← hzero, ← canonical_blockLen P term l] at hpool
    obtain ⟨A', hA', hok, hst, -, htotal, rfl⟩ :=
      rewrite_spec h hi (canonical_ok hl hlt term) hpool
    exact .inl ⟨hfit, A', hrun.trans hA', hok, htotal, hrest, hst⟩
  · refine .inr ⟨hfull, ?_⟩
    rw [hrun, Store.rewrite, hzero, canonical_blockLen, hnone]
    rfl

/-- All blocks, freed or not, are at places that a state can address. -/
structure Pool.Below (P : StateTp) (pool : Pool) : Prop where
  places : ∀ b ∈ pool.places, b.2 < P.maxPos
  freed : ∀ b ∈ pool.freed, b.2 < P.maxPos

section Below

variable {pool : Pool}

/-- No state lies beyond what it can store. -/
theorem Pool.Below.getpos (h : pool.Below P) (i : Nat) : pool.getpos i < P.maxPos := by
  unfold Pool.getpos
  cases hi : pool.places.find? (fun b => b.1 == i) with
  | none => cases P <;> decide
  | some b => exact h.places b (mem_of_find?_eq_some hi)

/-- A freed block stays among the places that can be stored. -/
theorem Pool.Below.sfree (h : pool.Below P) {pos : Nat} (hpos : pos < P.maxPos) (len : Nat) :
    (pool.sfree pos len).Below P := by
  unfold Pool.sfree
  split
  · exact ⟨h.places, h.freed⟩
  · exact ⟨h.places, forall_mem_cons.mpr ⟨hpos, h.freed⟩⟩

/-- Releasing a block does not make the pool longer. -/
theorem Pool.Below.release (h : pool.Below P) (i old : Nat) :
    (pool.release i old).Below P ∧ (pool.release i old).size ≤ pool.size := by
  unfold Pool.release
  split
  · exact ⟨h, le_rfl⟩
  refine ⟨h.sfree (h.getpos i) old, ?_⟩
  unfold Pool.sfree
  split
  · rename_i hend
    exact le_of_add_right_le hend.le
  · exact le_rfl

/-- **A BLOCK THAT GROWS** finds a place if the end of the pool can be addressed. -/
theorem Pool.Below.rewrite (h : pool.Below P) (i : Nat) {old new : Nat}
    (hroom : pool.size < P.maxPos ∨ old = new) :
    ∃ pool', pool.rewrite P i old new = some pool' ∧ pool'.Below P := by
  unfold Pool.rewrite
  by_cases hsame : old = new
  · exact ⟨pool, if_pos hsame, h⟩
  have hsize := hroom.resolve_right hsame
  obtain ⟨hplace, hbelow⟩ : (pool.alloc new).2 < P.maxPos ∧ (pool.alloc new).1.Below P := by
    unfold Pool.alloc
    split
    next b hb =>
      exact ⟨h.freed b (mem_of_find?_eq_some hb),
        h.places, fun b' hb' => h.freed b' (mem_of_mem_erase hb')⟩
    next => exact ⟨hsize, h.places, h.freed⟩
  have hset : ∀ {q : Pool}, q.Below P → ∃ pool', q.setpos P i (pool.alloc new).2 = some pool' ∧
      pool'.Below P := by
    intro q hq
    refine ⟨_, if_neg hplace.not_ge, forall_mem_cons.mpr ⟨hplace, hq.places⟩, hq.freed⟩
  rw [if_neg hsame]
  split
  · exact hset hbelow
  split
  · exact ⟨_, rfl, h.places, h.freed⟩
  · exact hset (hbelow.sfree (h.getpos i) old)

end Below

/-- **RESIZE_STATES** adds new states. -/
theorem resizeStates_grow (h : StoreOk P A) (hle : A.totalStates ≤ n) (hn : n < P.maxState) :
    ∃ A', A.resizeStates P n = some A' ∧ StoreOk P A' ∧ A'.totalStates = n ∧ A'.pool = A.pool ∧
      (∀ i, i < A.totalStates → A'.state? i = A.state? i) ∧
      ∀ i, A.totalStates ≤ i → i < n → A'.state? i = some State.new := by
  have htake : A.cells.take n = A.cells := take_of_length_le hle
  have hlen : (A.cells ++ replicate (n - A.cells.length) (Cell.used State.new)).length = n := by
    rw [length_append, length_replicate]
    exact Nat.add_sub_cancel' hle
  -- cells that are added hold new states
  have hnew : ∀ (i : Nat) (c : Cell), A.cells.length ≤ i →
      (A.cells ++ replicate (n - A.cells.length) (Cell.used State.new))[i]? = some c →
      c = .used State.new := by
    intro i c hi hc
    rw [getElem?_append_right hi, getElem?_replicate] at hc
    split at hc
    · exact (some.inj hc).symm
    · cases hc
  have hold : ∀ i, i < A.cells.length →
      (A.cells ++ replicate (n - A.cells.length) (Cell.used State.new))[i]? = A.cells[i]? :=
    fun i hi => getElem?_append_left hi
  have hfree := h.freeOk.append (k := n - A.cells.length)
    ((Nat.add_sub_cancel' hle).le.trans hn.le)
  refine ⟨{ A with cells := A.cells ++ replicate (n - A.cells.length) (.used State.new) },
    ?_, ⟨fun i s hs => ?_, hfree.bound, hfree.free⟩, hlen, rfl, fun i hi => ?_, fun i hi hin => ?_⟩
  · unfold Store.resizeStates
    rw [if_neg hn.not_ge, htake]
  · have hcell := state?_eq_some_iff.mp hs
    by_cases hi : i < A.cells.length
    · exact h.ok i s (state?_eq_some_iff.mpr ((hold i hi).symm.trans hcell))
    · rw [Cell.used.inj (hnew i _ (not_lt.mp hi) hcell)]
      exact new_ok P
  · exact congrArg (fun o => bind o Cell.state?) (hold i hi)
  · refine state?_eq_some_iff.mpr ?_
    have hi' : A.cells.length ≤ i := hi
    rw [getElem?_append_right hi', getElem?_replicate, if_pos (by omega)]

/-- **RESIZE_STATES** of a cleared automaton gives new states only. -/
theorem resizeStates_init (P : StateTp) (hn : n < P.maxState) :
    ∃ A, (Store.init P).resizeStates P n = some A ∧ StoreOk P A ∧ A.totalStates = n ∧ Filled A 0 ∧
      ∀ i, i < n → A.state? i = some State.new := by
  have hempty : StoreOk P { Store.init P with cells := [] } :=
    { ok := fun i s hs => (nomatch hs), bound := zero_le _,
      free := ⟨[], rfl, nodup_nil, rfl, fun i => by simp⟩ }
  obtain ⟨A, hresize, hok, htotal, hpool, -, hnew⟩ := resizeStates_grow hempty (zero_le n) hn
  refine ⟨A, Eq.trans ?_ hresize, hok, htotal, ⟨?_, ?_⟩, fun i hi => hnew i (zero_le i) hi⟩
  rotate_left
  · rw [hpool]
    rfl
  · rw [hpool]
    rfl
  -- the initial state is like the states that are added
  unfold Store.resizeStates
  cases n with
  | zero => rfl
  | succ n => simp [Store.init, replicate_succ]

end Automata
