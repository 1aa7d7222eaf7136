import ToplingArk.DfaSetOpProofs
import ToplingArk.TreeWalkerProofs

/-! # DoubleArrayTrie — a trie in two arrays

    The children of a state stand in the slots behind its base, each at the distance of its
    letter, and every slot has the number of its parent.  `build_from` visits the states of a
    trie in one of three orders and looks for a base whose slots are free.  A word of a slot
    is its top bit (final, free) and its other 31 bits (base, parent).

    `none` is a read or a write outside an array. -/

namespace DoubleArray

open Automata DfaSetOp TreeWalker List Nat

/-! ## Slots -/

/-- `nil_state` -/
def nilState : Nat := 2 ^ 31 - 1

/-- `max_state` -/
def maxState : Nat := 2 ^ 31 - 2

/-- `sigma` -/
def sigma : Nat := 512

/-- A slot of the double array, with its two 31-bit fields. -/
structure DaState where
  term : Bool
  child0 : Nat
  free : Bool
  up : Nat
  deriving DecidableEq, Repr

/-- A slot as its constructor leaves it. -/
def DaState.new : DaState := { term := false, child0 := nilState, free := true, up := nilState }

/-- `parent()` is the whole word, with the free bit. -/
def DaState.parent (s : DaState) : Nat := if s.free then 2 ^ 31 + s.up else s.up

/-- `set_term_bit` -/
def DaState.setTermBit (s : DaState) : DaState := { s with term := true }

/-- `set_child0` keeps the final bit, and sets it for a number that is too wide. -/
def DaState.setChild0 (s : DaState) (x : Nat) : DaState :=
  { s with term := s.term || x / 2 ^ 31 % 2 == 1, child0 := x % 2 ^ 31 }

/-- `set_parent` writes the whole word. -/
def DaState.setParent (s : DaState) (x : Nat) : DaState :=
  { s with free := x / 2 ^ 31 % 2 == 1, up := x % 2 ^ 31 }

/-- `state_move`: the child's slot must name its parent. -/
def stateMove (states : List DaState) (curr ch : Nat) : Option Nat :=
  states[curr]?.bind (fun s =>
    states[s.child0 + ch]?.map (fun t =>
      if t.parent = curr then s.child0 + ch else nilState))

/-! ## Looking for a base -/

/-- The arrays that grow. -/
structure Slots where
  states : List DaState
  x2y : List (Option Nat)

/-- `resize` of both arrays. -/
def Slots.resize (a : Slots) (n : Nat) : Slots where
  states := a.states.take n ++ replicate (n - a.states.length) DaState.new
  x2y := a.x2y.take n ++ replicate (n - a.x2y.length) none

/-- The first free slot from `x` on, of the slots from there. -/
def nextFree : List DaState → Nat → Option Nat
  | [], _ => none
  | s :: l, x => if s.free then some x else nextFree l (x + 1)

/-- One round from `Retry`: the arrays, the next base to try, and whether it is the one. -/
def tryMoves (nMoves : Nat) : List (Nat × Nat) → Slots → Nat → Slots × Nat × Bool
  | [], a, slot => (a, slot, true)
  | m :: labels, a, slot =>
    match a.states[slot + m.1]? with
    | none => tryMoves nMoves labels (a.resize ((slot + m.1) * 3 / 2)) slot
    | some s =>
      if s.free then tryMoves nMoves labels a slot
      else
        match nextFree (a.states.drop (slot + m.1 + 1)) (slot + m.1 + 1) with
        | none => (a, a.states.length, false)
        | some x => (a, x - m.1, nMoves == 1)

/-- The rounds. -/
def findSlot (labels : List (Nat × Nat)) : Nat → Slots → Nat → Option (Slots × Nat)
  | 0, _, _ => none
  | fuel + 1, a, slot =>
    let r := tryMoves labels.length labels a slot
    if r.2.2 then some (r.1, r.2.1) else findSlot labels fuel r.1 r.2.1

/-! ## build_from -/

/-- The arrays of `build_from`. -/
structure Arrays extends Slots where
  y2x : List Nat
  realSize : Nat

/-- A child is put into its slot. -/
def placeChild (y : Src) (xParent slot : Nat) (b : Arrays) (m : Nat × Nat) : Option Arrays :=
  b.states[slot + m.1]?.bind (fun s =>
    if m.2 < b.y2x.length then
      some { y2x := b.y2x.set m.2 ((slot + m.1) % 2 ^ 32)
             x2y := b.x2y.set (slot + m.1) (some m.2)
             states := b.states.set (slot + m.1)
               (if y.term m.2 then (s.setParent xParent).setTermBit else s.setParent xParent)
             realSize := if b.realSize ≤ slot + m.1 then slot + m.1 + 1 else b.realSize }
    else none)

/-- A state is visited: the arrays and the base that was found. -/
def visit (y : Src) (b : Arrays) (currSlot yParent : Nat) : Option (Arrays × Nat) :=
  (findSlot (y.moves yParent) (b.states.length + 1) b.toSlots currSlot).bind (fun r =>
    b.y2x[yParent]?.bind (fun xParent =>
      r.1.states[xParent]?.bind (fun s =>
        (Runs.run (placeChild y xParent r.2)
          { b with states := r.1.states.set xParent (s.setChild0 r.2), x2y := r.1.x2y }
          (y.moves yParent)).map (fun b => (b, r.2)))))

/-- `huristic_factor` -/
def huristicFactor : Nat := 16

/-- The loop, by the number of its rounds. -/
def walkAll (y : Src) (M : Walker) : Nat → M.W → Nat → Arrays → Option Arrays
  | 0, _, _, _ => none
  | fuel + 1, w, currSlot, b =>
    if M.finished w then some b
    else (M.next w).bind (fun r =>
      (visit y b currSlot r.1).bind (fun v =>
        walkAll y M fuel (M.put r.2 ((y.moves r.1).map Prod.snd))
          (currSlot + (v.2 - currSlot) / huristicFactor) v.1))

/-- The arrays before the loop, with the root in its slot. -/
def start (y : Src) : Arrays where
  states := replicate (y.states * 3 / 2) DaState.new
  x2y := (replicate (y.states * 3 / 2) none).set 0 (some 0)
  y2x := (replicate y.states nilState).set 0 0
  realSize := 1

/-- A base for the slots without one. -/
def fillChild0 (realSize i : Nat) (s : DaState) : DaState :=
  if i < realSize ∧ s.child0 = nilState then s.setChild0 1 else s

/-- The end: the arrays are cut behind the padding, and the root becomes its own parent. -/
def finish (extra : Nat) (b : Arrays) : Option Arrays :=
  let a := b.toSlots.resize (b.realSize + extra + sigma)
  let states := a.states.mapIdx (fillChild0 b.realSize)
  states[0]?.map (fun s => { b with states := states.set 0 (s.setParent 0), x2y := a.x2y })

/-- `build_from` with the initial state as the only root. -/
def buildFrom (y : Src) (method : WalkMethod) (extra : Nat) : Option Arrays :=
  (walkAll y method.walker (y.states + 1) (method.walker.root 0) 1 (start y)).bind (finish extra)

/-! ## The automaton of the slots -/

/-- The automaton of a double array. -/
def dfa (states : List DaState) : Dfa.Pdfa Nat Nat where
  final := fun x => states[x]?.elim false DaState.term
  next := fun x c =>
    if c < sigma then (stateMove states x c).bind (fun t => if t = nilState then none else some t)
    else none

/-! ## Numbers of 31 bits -/

variable {x k slot : Nat} {s : DaState} {l : List DaState} {labels : List (Nat × Nat)}

theorem setChild0_eq (s : DaState) (hx : x < 2 ^ 31) : s.setChild0 x = { s with child0 := x } := by
  unfold DaState.setChild0
  rw [mod_eq_of_lt hx, div_eq_of_lt hx]
  simp

theorem setParent_eq (s : DaState) (hx : x < 2 ^ 31) :
    s.setParent x = { s with free := false, up := x } := by
  unfold DaState.setParent
  rw [mod_eq_of_lt hx, div_eq_of_lt hx]
  rfl

/-! ## Growing arrays -/

/-- The arrays with new slots behind them. -/
def Slots.Extends (a a' : Slots) : Prop :=
  ∃ k, a'.states = a.states ++ replicate k DaState.new ∧
    a'.x2y = a.x2y ++ replicate k none

variable {a a' a'' : Slots}

theorem Slots.Extends.refl (a : Slots) : a.Extends a :=
  ⟨0, (append_nil _).symm, (append_nil _).symm⟩

/-- Growing twice is growing. -/
theorem Slots.Extends.trans (h : a.Extends a') (h' : a'.Extends a'') : a.Extends a'' := by
  obtain ⟨k, hs, hx⟩ := h
  obtain ⟨k', hs', hx'⟩ := h'
  refine ⟨k + k', ?_, ?_⟩
  · rw [hs', hs, append_assoc, replicate_append_replicate]
  · rw [hx', hx, append_assoc, replicate_append_replicate]

theorem Slots.resize_length (a : Slots) (n : Nat) : (a.resize n).states.length = n := by
  show (a.states.take n ++ replicate _ _).length = n
  rw [length_append, length_take, length_replicate]
  omega

/-- A resize adds free slots only. -/
theorem Slots.resize_extends (a : Slots) {n : Nat} (hs : a.states.length ≤ n)
    (hlen : a.x2y.length = a.states.length) : a.Extends (a.resize n) := by
  refine ⟨n - a.states.length, ?_, ?_⟩
  · show a.states.take n ++ _ = _
    rw [take_of_length_le hs]
  · show a.x2y.take n ++ _ = _
    rw [take_of_length_le (hlen.trans_le hs), hlen]

theorem Slots.Extends.lengths (h : a.Extends a') (hlen : a.x2y.length = a.states.length) :
    a'.x2y.length = a'.states.length := by
  obtain ⟨k, hs, hx⟩ := h
  rw [hs, hx, length_append, length_append, hlen, length_replicate, length_replicate]

theorem Slots.Extends.length_le (h : a.Extends a') : a.states.length ≤ a'.states.length := by
  obtain ⟨k, hs, -⟩ := h
  rw [hs, length_append]
  exact le_add_right _ _

/-- Slots that were there stay as they are. -/
theorem Slots.Extends.old (h : a.Extends a') (hx : x < a.states.length) :
    a'.states[x]? = a.states[x]? := by
  obtain ⟨k, hs, -⟩ := h
  rw [hs, getElem?_append_left hx]

theorem Slots.Extends.old_x2y (h : a.Extends a') (hx : x < a.x2y.length) :
    a'.x2y[x]? = a.x2y[x]? := by
  obtain ⟨k, -, hs⟩ := h
  rw [hs, getElem?_append_left hx]

theorem Slots.Extends.state (h : a.Extends a') (hx : a.states[x]? = some s) :
    a'.states[x]? = some s :=
  (h.old (List.getElem_of_getElem? hx).1).trans hx

/-- A slot of the larger arrays is an old one or a new one. -/
theorem Slots.Extends.cases (h : a.Extends a') (hx : a'.states[x]? = some s) :
    a.states[x]? = some s ∨ (a.states.length ≤ x ∧ s = DaState.new) := by
  obtain ⟨k, hs, -⟩ := h
  by_cases hlt : x < a.states.length
  · rw [hs, getElem?_append_left hlt] at hx
    exact .inl hx
  · rw [hs, getElem?_append_right (not_lt.mp hlt), getElem?_replicate] at hx
    split at hx
    · exact .inr ⟨not_lt.mp hlt, (Option.some.inj hx).symm⟩
    · cases hx

/-! ## The search ends at free slots -/

/-- The next free slot, with none free before it. -/
theorem nextFree_spec (h : nextFree l k = some x) :
    k ≤ x ∧ (∃ s, l[x - k]? = some s ∧ s.free = true) ∧
      ∀ z, k ≤ z → z < x → ∃ s, l[z - k]? = some s ∧ s.free = false := by
  induction l generalizing k with
  | nil => cases h
  | cons s l ih =>
    unfold nextFree at h
    split at h
    · rename_i hfree
      rw [← Option.some.inj h, Nat.sub_self]
      exact ⟨le_rfl, ⟨s, rfl, hfree⟩, fun z hz hlt => absurd hz hlt.not_ge⟩
    rename_i hfree
    obtain ⟨hle, ⟨t, ht, htf⟩, hbefore⟩ := ih h
    have hshift : ∀ z, k + 1 ≤ z → (s :: l)[z - k]? = l[z - (k + 1)]? := by
      intro z hz
      rw [show z - k = z - (k + 1) + 1 by omega, getElem?_cons_succ]
    refine ⟨le_of_succ_le hle, ⟨t, (hshift x hle).trans ht, htf⟩, fun z hz hlt => ?_⟩
    by_cases heq : z = k
    · subst heq
      rw [Nat.sub_self]
      exact ⟨s, rfl, Bool.eq_false_iff.mpr hfree⟩
    · have hz' : k + 1 ≤ z := by omega
      rw [hshift z hz']
      exact hbefore z hz' hlt

theorem nextFree_none (h : nextFree l k = none) : ∀ s ∈ l, s.free = false := by
  induction l generalizing k with
  | nil => exact fun s hs => nomatch hs
  | cons s l ih =>
    unfold nextFree at h
    split at h
    · cases h
    · rename_i hfree
      exact forall_mem_cons.mpr ⟨Bool.eq_false_iff.mpr hfree, ih h⟩

/-- From the slot `real` on all slots are free. -/
structure FreeFrom (a : Slots) (real : Nat) : Prop where
  lengths : a.x2y.length = a.states.length
  le : real ≤ a.states.length
  free : ∀ x s, a.states[x]? = some s → real ≤ x → s.free = true

variable {real : Nat}

/-- Behind `real_size` all stays free. -/
theorem FreeFrom.extends (h : FreeFrom a real) (hext : a.Extends a') : FreeFrom a' real where
  lengths := hext.lengths h.lengths
  le := h.le.trans hext.length_le
  free := by
    intro x s hx hle
    rcases hext.cases hx with hx | ⟨-, rfl⟩
    · exact h.free x s hx hle
    · rfl

/-- Behind a slot in use comes a free one, or the arrays end. -/
theorem FreeFrom.skip (h : FreeFrom a real) (hx : a.states[x]? = some s) (hused : s.free = false) :
    (nextFree (a.states.drop (x + 1)) (x + 1) = none ∧ a.states.length = real) ∨
      ∃ z t, nextFree (a.states.drop (x + 1)) (x + 1) = some z ∧ x < z ∧ z ≤ real ∧
        a.states[z]? = some t ∧ t.free = true := by
  have hlt : x < real := by
    refine not_le.mp (fun hle => ?_)
    rw [h.free x s hx hle] at hused
    cases hused
  have hreal : real < a.states.length → ∃ t, a.states[real]? = some t ∧ t.free = true :=
    fun hin => ⟨_, getElem?_eq_getElem hin, h.free real _ (getElem?_eq_getElem hin)
      le_rfl⟩
  cases hnext : nextFree (a.states.drop (x + 1)) (x + 1) with
  | none =>
    refine .inl ⟨rfl, le_antisymm (not_lt.mp (fun hin => ?_)) h.le⟩
    obtain ⟨t, ht, htf⟩ := hreal hin
    have hmem : t ∈ a.states.drop (x + 1) := by
      refine mem_of_getElem? (i := real - (x + 1)) ?_
      rw [getElem?_drop, Nat.add_sub_cancel' hlt]
      exact ht
    rw [nextFree_none hnext t hmem] at htf
    cases htf
  | some z =>
    obtain ⟨hle, ⟨t, ht, htf⟩, hbefore⟩ := nextFree_spec hnext
    rw [getElem?_drop, Nat.add_sub_cancel' hle] at ht
    refine .inr ⟨z, t, rfl, hle, not_lt.mp (fun hgt => ?_), ht, htf⟩
    obtain ⟨u, hu, huf⟩ := hbefore real hlt hgt
    rw [getElem?_drop, Nat.add_sub_cancel' hlt] at hu
    rw [h.free real u hu le_rfl] at huf
    cases huf

/-- Where the letters lead from a base there are free slots. -/
def Fitting (a : Slots) (slot : Nat) (labels : List (Nat × Nat)) : Prop :=
  ∀ m ∈ labels, ∃ s, a.states[slot + m.1]? = some s ∧ s.free = true

/-- Where a round from `slot` ends. -/
structure Tried (a : Slots) (real nMoves slot : Nat) (labels : List (Nat × Nat))
    (r : Slots × Nat × Bool) : Prop where
  ext : a.Extends r.1
  ge : slot ≤ r.2.1
  le : r.2.1 ≤ real
  fits : r.2.2 = true → Fitting r.1 r.2.1 labels
  same : r.2.2 = true → nMoves ≠ 1 → r.2.1 = slot
  more : r.2.2 = false → slot < r.2.1

/-- **ONE ROUND** finds that the base fits, or goes on with a larger one. -/
theorem tryMoves_spec {nMoves : Nat} (h : FreeFrom a real)
    (htwo : labels ≠ [] → 2 ≤ a.states.length) (hslot : slot ≤ real)
    (hone : nMoves = 1 → labels.length ≤ 1) :
    Tried a real nMoves slot labels (tryMoves nMoves labels a slot) := by
  induction labels generalizing a with
  | nil => exact ⟨.refl a, le_rfl, hslot, fun _ => forall_mem_nil _, fun _ _ => rfl, nofun⟩
  | cons m labels ih =>
    have hnil : nMoves = 1 → labels = [] := fun hn =>
      length_eq_zero_iff.mp (le_zero.mp (le_of_succ_le_succ (hone hn)))
    -- with one letter the rest is empty, with more letters the base stays
    have htail : ∀ {a1 : Slots}, FreeFrom a1 real → 2 ≤ a1.states.length →
        (∃ s, a1.states[slot + m.1]? = some s ∧ s.free = true) →
        Tried a1 real nMoves slot (m :: labels) (tryMoves nMoves labels a1 slot) := by
      intro a1 h1 h2 hm
      by_cases hn : nMoves = 1
      · rw [hnil hn]
        exact ⟨.refl a1, le_rfl, hslot, fun _ => forall_mem_singleton.mpr hm, fun _ _ => rfl,
          nofun⟩
      obtain ⟨s, hs, hfree⟩ := hm
      have hrest := ih h1 (fun _ => h2) (fun h => absurd h hn)
      refine { hrest with fits := fun hd => forall_mem_cons.mpr ⟨?_, hrest.fits hd⟩ }
      rw [hrest.same hd hn]
      exact ⟨s, hrest.ext.state hs, hfree⟩
    have htwo := htwo (cons_ne_nil m labels)
    unfold tryMoves
    cases hx : a.states[slot + m.1]? with
    | none =>
      have hge : a.states.length ≤ slot + m.1 := getElem?_eq_none_iff.mp hx
      have hext : a.Extends (a.resize ((slot + m.1) * 3 / 2)) :=
        a.resize_extends (by omega) h.lengths
      have hnew : (a.resize ((slot + m.1) * 3 / 2)).states[slot + m.1]? =
          some DaState.new := by
        show (a.states.take _ ++ _)[slot + m.1]? = _
        rw [take_of_length_le (by omega), getElem?_append_right hge,
          getElem?_replicate, if_pos (by omega)]
      have hrest := htail (h.extends hext) (htwo.trans hext.length_le) ⟨_, hnew, rfl⟩
      exact { hrest with ext := hext.trans hrest.ext }
    | some s =>
      dsimp only
      split
      next hfree =>
        exact htail h htwo ⟨s, hx, hfree⟩
      rename_i hfree
      rcases h.skip hx (Bool.eq_false_iff.mpr hfree) with
        ⟨hnone, hlen⟩ | ⟨z, t, hsome, hxz, hzreal, ht, htf⟩
      · have hin := (List.getElem_of_getElem? hx).1
        rw [hnone]
        exact ⟨.refl a, show slot ≤ a.states.length by omega, hlen.le, nofun, nofun,
          fun _ => show slot < a.states.length by omega⟩
      rw [hsome]
      refine ⟨.refl a, show slot ≤ z - m.1 by omega, show z - m.1 ≤ real by omega, fun hd => ?_,
        fun hd hn => absurd (beq_iff_eq.mp hd) hn, fun _ => show slot < z - m.1 by omega⟩
      rw [hnil (beq_iff_eq.mp hd)]
      refine forall_mem_singleton.mpr ⟨t, ?_, htf⟩
      rwa [Nat.sub_add_cancel (by omega)]

/-- **THE SEARCH** ends at a base that fits, at most at the first slot behind all used ones. -/
theorem findSlot_spec {fuel : Nat} (h : FreeFrom a real) (htwo : labels ≠ [] → 2 ≤ a.states.length)
    (hslot : slot ≤ real) (hfuel : real - slot < fuel) :
    ∃ a' slot', findSlot labels fuel a slot = some (a', slot') ∧ a.Extends a' ∧ slot ≤ slot' ∧
      slot' ≤ real ∧ Fitting a' slot' labels := by
  induction fuel generalizing a slot with
  | zero => cases hfuel
  | succ fuel ih =>
    have ht := tryMoves_spec h htwo hslot (fun hone : labels.length = 1 => hone.le)
    rw [findSlot]
    generalize tryMoves labels.length labels a slot = r at ht
    cases hdone : r.2.2 with
    | true => exact ⟨_, _, rfl, ht.ext, ht.ge, ht.le, ht.fits hdone⟩
    | false =>
      have hlt := ht.more hdone
      have hge := ht.le
      obtain ⟨a', slot', hrun, hext, hle, hreal, hfit⟩ := ih (h.extends ht.ext)
        (fun hne => le_trans (htwo hne) ht.ext.length_le) ht.le (by omega)
      exact ⟨a', slot', hrun, ht.ext.trans hext, by omega, hreal, hfit⟩

end DoubleArray
