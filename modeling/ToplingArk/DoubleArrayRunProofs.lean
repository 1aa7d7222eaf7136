import ToplingArk.DoubleArrayProofs

/-! # build_from keeps the trie

    Between two rounds the states that have been found have slots of their own.  A visited
    state has a base, and its children stand behind it; the slots of the others have none.
    All other slots are new.  At the end the parent of a slot decides every transition. -/

namespace DoubleArray

open Automata DfaSetOp TreeWalker List Option Nat

/-- Every state has at most one transition to it, the root none. -/
structure TrieShaped (y : Src) : Prop where
  one : ∀ p q, ∀ m ∈ y.moves p, ∀ m' ∈ y.moves q, m.2 = m'.2 → p = q ∧ m = m'
  root : ∀ p, ∀ m ∈ y.moves p, m.2 ≠ 0
  pos : 0 < y.states

/-- The slot of a trie state. -/
def Arrays.slot (b : Arrays) (p : Nat) : Nat := b.y2x[p]?.getD nilState

/-! ## The children of a state -/

/-- The slot of a child that is placed. -/
def childCell (y : Src) (xParent : Nat) (t : Nat) (s : DaState) : DaState :=
  if y.term t then (s.setParent xParent).setTermBit else s.setParent xParent

/-- What is written for the children, and nothing else. -/
structure ChildrenPlaced (y : Src) (xParent slot : Nat) (labels : List (Nat × Nat))
    (b b' : Arrays) : Prop where
  statesLen : b'.states.length = b.states.length
  x2yLen : b'.x2y.length = b.x2y.length
  y2xLen : b'.y2x.length = b.y2x.length
  child : ∀ m ∈ labels, ∀ s, b.states[slot + m.1]? = some s →
    b'.states[slot + m.1]? = some (childCell y xParent m.2 s)
  state : ∀ x, (∀ m ∈ labels, slot + m.1 ≠ x) → b'.states[x]? = b.states[x]?
  back : ∀ m ∈ labels, b'.x2y[slot + m.1]? = some (some m.2)
  x2y : ∀ x, (∀ m ∈ labels, slot + m.1 ≠ x) → b'.x2y[x]? = b.x2y[x]?
  slots : ∀ m ∈ labels, b'.y2x[m.2]? = some ((slot + m.1) % 2 ^ 32)
  y2x : ∀ t, (∀ m ∈ labels, m.2 ≠ t) → b'.y2x[t]? = b.y2x[t]?
  mono : b.realSize ≤ b'.realSize
  real : ∀ m ∈ labels, slot + m.1 < b'.realSize
  tight : b'.realSize = b.realSize ∨ ∃ m ∈ labels, b'.realSize = slot + m.1 + 1

/-- **THE CHILDREN** are put into their slots. -/
theorem placeChildren_spec {y : Src} {xParent slot : Nat} {b : Arrays} {labels : List (Nat × Nat)}
    (hin : ∀ m ∈ labels, slot + m.1 < b.states.length)
    (hlen : b.x2y.length = b.states.length) (htargets : ∀ m ∈ labels, m.2 < b.y2x.length)
    (hletters : (labels.map Prod.fst).Nodup) (hdist : (labels.map Prod.snd).Nodup) :
    ∃ b', Runs.run (placeChild y xParent slot) b labels = some b' ∧
      ChildrenPlaced y xParent slot labels b b' := by
  induction labels using reverseRecOn with
  | nil =>
    refine ⟨b, rfl, ?_⟩
    exact { statesLen := rfl, x2yLen := rfl, y2xLen := rfl, state := fun _ _ => rfl
            x2y := fun _ _ => rfl, y2x := fun _ _ => rfl, mono := le_rfl, tight := .inl rfl
            child := forall_mem_nil _, back := forall_mem_nil _, slots := forall_mem_nil _
            real := forall_mem_nil _ }
  | append_singleton labels m ih =>
    rw [map_append, nodup_append] at hletters hdist
    obtain ⟨hl1, -, hl2⟩ := hletters
    obtain ⟨hd1, -, hd2⟩ := hdist
    obtain ⟨b1, hrun, h⟩ := ih (fun x hx => hin x (mem_append_left _ hx))
      (fun x hx => htargets x (mem_append_left _ hx)) hl1 hd1
    have hself : m ∈ labels ++ [m] := mem_append_right _ (mem_singleton_self m)
    -- letters and children differ, so nothing is overwritten
    have hnew : ∀ x ∈ labels, slot + x.1 ≠ slot + m.1 := by
      intro x hx heq
      exact hl2 x.1 (mem_map_of_mem hx) m.1 (mem_singleton_self _)
        (add_left_cancel heq)
    have hnew2 : ∀ x ∈ labels, x.2 ≠ m.2 := by
      intro x hx heq
      exact hd2 x.2 (mem_map_of_mem hx) m.2 (mem_singleton_self _) heq
    have hlt : slot + m.1 < b1.states.length := by
      rw [h.statesLen]
      exact hin m hself
    have hlt2 : slot + m.1 < b1.x2y.length := by
      rw [h.x2yLen, hlen, ← h.statesLen]
      exact hlt
    have htgt : m.2 < b1.y2x.length := by
      rw [h.y2xLen]
      exact htargets m hself
    have hget : b1.states[slot + m.1]? = some b1.states[slot + m.1] :=
      getElem?_eq_getElem hlt
    -- what placing the last child does
    obtain ⟨b2, hput, hstates, hx2y, hy2x, hreal⟩ : ∃ b2,
        placeChild y xParent slot b1 m = some b2 ∧
        b2.states = b1.states.set (slot + m.1) (childCell y xParent m.2 b1.states[slot + m.1]) ∧
        b2.x2y = b1.x2y.set (slot + m.1) (some m.2) ∧
        b2.y2x = b1.y2x.set m.2 ((slot + m.1) % 2 ^ 32) ∧
        b2.realSize = if b1.realSize ≤ slot + m.1 then slot + m.1 + 1 else b1.realSize := by
      unfold placeChild
      rw [hget, bind_some, if_pos htgt]
      exact ⟨_, rfl, rfl, rfl, rfl, rfl⟩
    have hmono := h.mono
    have hgrow : b1.realSize ≤ b2.realSize ∧ slot + m.1 < b2.realSize := by
      rw [hreal]
      split <;> omega
    refine ⟨b2, by rw [Runs.run_snoc, hrun, bind_some, hput],
      { statesLen := ?_, x2yLen := ?_, y2xLen := ?_, child := ?_, state := ?_, back := ?_,
        x2y := ?_, slots := ?_, y2x := ?_, mono := hmono.trans hgrow.1, real := ?_,
        tight := ?_ }⟩
    · rw [hstates, length_set]
      exact h.statesLen
    · rw [hx2y, length_set]
      exact h.x2yLen
    · rw [hy2x, length_set]
      exact h.y2xLen
    · rw [hstates]
      refine forall_mem_append.mpr ⟨fun x hx s hs => ?_, forall_mem_singleton.mpr (fun s hs => ?_)⟩
      · rw [getElem?_set_ne (hnew x hx).symm]
        exact h.child x hx s hs
      · rw [h.state _ hnew, hs] at hget
        rw [getElem?_set_self hlt, ← some.inj hget]
    · intro x hx
      rw [hstates, getElem?_set_ne (hx m hself)]
      exact h.state x (fun z hz => hx z (mem_append_left _ hz))
    · rw [hx2y]
      refine forall_mem_append.mpr ⟨fun x hx => ?_, forall_mem_singleton.mpr ?_⟩
      · rw [getElem?_set_ne (hnew x hx).symm]
        exact h.back x hx
      · exact getElem?_set_self hlt2
    · intro x hx
      rw [hx2y, getElem?_set_ne (hx m hself)]
      exact h.x2y x (fun z hz => hx z (mem_append_left _ hz))
    · rw [hy2x]
      refine forall_mem_append.mpr ⟨fun x hx => ?_, forall_mem_singleton.mpr ?_⟩
      · rw [getElem?_set_ne (hnew2 x hx).symm]
        exact h.slots x hx
      · exact getElem?_set_self htgt
    · intro t ht
      rw [hy2x, getElem?_set_ne (ht m hself)]
      exact h.y2x t (fun z hz => ht z (mem_append_left _ hz))
    · exact forall_mem_append.mpr ⟨fun x hx => lt_of_lt_of_le (h.real x hx) hgrow.1,
        forall_mem_singleton.mpr hgrow.2⟩
    · rw [hreal]
      split
      · exact .inr ⟨m, hself, rfl⟩
      · rcases h.tight with heq | ⟨x, hx, heq⟩
        · exact .inl heq
        · exact .inr ⟨x, mem_append_left _ hx, heq⟩

/-! ## The invariant -/

/-- The slots between two rounds; `seen` has been visited, `pend` has been found. -/
structure Inv (y : Src) (b : Arrays) (seen pend : List Nat) (currSlot : Nat) : Prop where
  nodup : (seen ++ pend).Nodup
  small : ∀ p ∈ seen ++ pend, p < y.states
  root : 0 ∈ seen ++ pend
  origin : ∀ t ∈ seen ++ pend, t ≠ 0 → ∃ p ∈ seen, ∃ c, (c, t) ∈ y.moves p
  closed : ∀ p ∈ seen, ∀ m ∈ y.moves p, m.2 ∈ seen ++ pend
  y2xLen : b.y2x.length = y.states
  lengths : b.x2y.length = b.states.length
  grown : y.states * 3 / 2 ≤ b.states.length
  rootSlot : b.slot 0 = 0
  unseen : ∀ p, p ∉ seen ++ pend → b.slot p = nilState
  back : ∀ p ∈ seen ++ pend, b.x2y[b.slot p]? = some (some p)
  empty : ∀ x, x < b.states.length → (∀ p ∈ seen ++ pend, b.slot p ≠ x) →
    b.states[x]? = some DaState.new
  used : ∀ p ∈ seen ++ pend, b.slot p < b.realSize
  slotPos : 1 ≤ currSlot
  slotLe : currSlot ≤ b.realSize
  realLe : b.realSize ≤ b.states.length
  fits : b.realSize ≤ maxState
  rootCell : ∃ s, b.states[0]? = some s ∧ s.free = true ∧ s.term = false
  base : ∀ p ∈ seen, ∃ s, b.states[b.slot p]? = some s ∧ 1 ≤ s.child0 ∧ s.child0 ≤ b.realSize ∧
    ∀ m ∈ y.moves p, b.slot m.2 = s.child0 + m.1
  fresh : ∀ p ∈ pend, ∃ s, b.states[b.slot p]? = some s ∧ s.child0 = nilState
  cell : ∀ p ∈ seen, ∀ m ∈ y.moves p, ∃ t, b.states[b.slot m.2]? = some t ∧ t.free = false ∧
    t.up = b.slot p ∧ t.term = y.term m.2

variable {y : Src} {b : Arrays} {seen pend rest : List Nat} {currSlot p : Nat}

section

variable (h : Inv y b seen pend currSlot)

include h

/-- Which state is next does not matter. -/
theorem Inv.perm {pend' : List Nat} (hperm : pend.Perm pend') : Inv y b seen pend' currSlot := by
  have hall : (seen ++ pend).Perm (seen ++ pend') := hperm.append_left seen
  exact { h with
    nodup := hall.nodup_iff.mp h.nodup
    small := fun p hp => h.small p (hall.mem_iff.mpr hp)
    root := hall.mem_iff.mp h.root
    origin := fun t ht => h.origin t (hall.mem_iff.mpr ht)
    closed := fun p hp m hm => hall.mem_iff.mp (h.closed p hp m hm)
    unseen := fun p hp => h.unseen p (fun hmem => hp (hall.mem_iff.mp hmem))
    back := fun p hp => h.back p (hall.mem_iff.mpr hp)
    empty := fun x hx hne => h.empty x hx (fun p hp => hne p (hall.mem_iff.mp hp))
    used := fun p hp => h.used p (hall.mem_iff.mpr hp)
    fresh := fun p hp => h.fresh p (hperm.mem_iff.mpr hp) }

/-- No two states share a slot. -/
theorem Inv.slot_inj {q : Nat} (hp : p ∈ seen ++ pend) (hq : q ∈ seen ++ pend)
    (heq : b.slot p = b.slot q) : p = q := by
  have hback := h.back p hp
  rw [heq, h.back q hq] at hback
  exact (some.inj (some.inj hback)).symm

/-- The slot of a state is not free. -/
theorem Inv.slot_used (hp : p ∈ seen ++ pend) (hne : p ≠ 0) :
    ∃ t, b.states[b.slot p]? = some t ∧ t.free = false := by
  obtain ⟨q, hq, c, hc⟩ := h.origin p hp hne
  obtain ⟨t, ht, hfree, -⟩ := h.cell q hq _ hc
  exact ⟨t, ht, hfree⟩

/-- Slot 0 is the root's alone. -/
theorem Inv.slot_pos (hp : p ∈ seen ++ pend) (hne : p ≠ 0) : 1 ≤ b.slot p := by
  refine one_le_iff_ne_zero.mpr (fun hzero => hne ?_)
  exact h.slot_inj hp h.root (hzero.trans h.rootSlot.symm)

theorem Inv.slot_lt (hp : p ∈ seen ++ pend) : b.slot p < nilState :=
  lt_of_lt_of_le (h.used p hp) (h.fits.trans (by decide))

/-- No state is found twice. -/
theorem Inv.length_le : (seen ++ pend).length ≤ y.states := by
  have hsub : seen ++ pend ⊆ range y.states := fun p hp => mem_range.mpr (h.small p hp)
  have hle := (h.nodup.subperm hsub).length_le
  rwa [length_range] at hle

/-- A free slot behind the first one is no state's. -/
theorem Inv.free_slot {x : Nat} {s : DaState} (hx : 1 ≤ x) (hs : b.states[x]? = some s)
    (hfree : s.free = true) : ∀ p ∈ seen ++ pend, b.slot p ≠ x := by
  intro p hp heq
  by_cases hzero : p = 0
  · rw [hzero, h.rootSlot] at heq
    omega
  · obtain ⟨t, ht, htf⟩ := h.slot_used hp hzero
    rw [heq, hs] at ht
    rw [← some.inj ht, hfree] at htf
    cases htf

/-- The invariant leaves all slots from `real_size` on free. -/
theorem Inv.freeFrom : FreeFrom b.toSlots b.realSize where
  lengths := h.lengths
  le := h.realLe
  free := by
    intro x s hx hle
    have hnew := h.empty x (List.getElem_of_getElem? hx).1
      (fun p hp heq => absurd (h.used p hp) (not_lt.mpr (heq ▸ hle)))
    rw [hnew] at hx
    rw [← some.inj hx]
    rfl

end

/-- What a trie says about the children of a pending state. -/
theorem Inv.children_new (htrie : TrieShaped y) (h : Inv y b seen (p :: rest) currSlot) :
    ∀ m ∈ y.moves p, m.2 ∉ seen ++ p :: rest := by
  intro m hm hmem
  obtain ⟨q, hq, c, hc⟩ := h.origin m.2 hmem (htrie.root p m hm)
  obtain ⟨rfl, -⟩ := htrie.one p q m hm _ hc rfl
  exact (nodup_append.mp h.nodup).2.2 p hq p mem_cons_self rfl

theorem letters_nodup (y : Src) (p : Nat) : ((y.moves p).map Prod.fst).Nodup :=
  pairwise_map.mpr ((y.ascending p).imp ne_of_lt)

/-- No state has two transitions to one child. -/
theorem TrieShaped.targets_nodup (htrie : TrieShaped y) (p : Nat) :
    ((y.moves p).map Prod.snd).Nodup := by
  have hnodup : (y.moves p).Nodup := (letters_nodup y p).of_map
  exact List.Nodup.map_on (fun m hm m' hm' heq => (htrie.one p p m hm m' hm' heq).2) hnodup

theorem Arrays.y2x_eq (hp : p < b.y2x.length) : b.y2x[p]? = some (b.slot p) := by
  unfold Arrays.slot
  rw [getElem?_eq_getElem hp]
  rfl

/-- A free slot becomes a child. -/
theorem childCell_new (y : Src) {xParent : Nat} (hx : xParent < 2 ^ 31) (t : Nat) :
    childCell y xParent t DaState.new =
      { term := y.term t, child0 := nilState, free := false, up := xParent } := by
  unfold childCell
  rw [setParent_eq _ hx]
  cases y.term t with
  | true => rfl
  | false => rfl

/-- Where the base fits, the slots of the children are new and nobody else's. -/
theorem Inv.fitting_new (h : Inv y b seen pend currSlot) {a : Slots} (hext : b.toSlots.Extends a)
    {slot : Nat} (hle : currSlot ≤ slot) {labels : List (Nat × Nat)}
    (hfit : Fitting a slot labels) : ∀ m ∈ labels, a.states[slot + m.1]? = some DaState.new ∧
      ∀ q ∈ seen ++ pend, b.slot q ≠ slot + m.1 := by
  intro m hm
  obtain ⟨s, hs, hfree⟩ := hfit m hm
  have hpos := h.slotPos
  rcases hext.cases hs with hold | ⟨hlen, rfl⟩
  · have hnobody := h.free_slot (by omega) hold hfree
    have hnew := h.empty _ (List.getElem_of_getElem? hold).1 hnobody
    exact ⟨hext.state hnew, hnobody⟩
  · refine ⟨hs, fun q hq heq => ?_⟩
    have hlt := h.used q hq
    have hreal := h.realLe
    omega

/-- What a visit of `p` changes: its base becomes `slot`, and its children get their slots. -/
structure Visited (y : Src) (b b' : Arrays) (all : List Nat) (p slot : Nat) : Prop where
  nobody : ∀ m ∈ y.moves p, ∀ q ∈ all, b.slot q ≠ slot + m.1
  slotOld : ∀ q, (∀ m ∈ y.moves p, m.2 ≠ q) → b'.slot q = b.slot q
  slotNew : ∀ m ∈ y.moves p, b'.slot m.2 = slot + m.1
  self : ∃ s, b.states[b.slot p]? = some s ∧
    b'.states[b.slot p]? = some { s with child0 := slot }
  child : ∀ m ∈ y.moves p, b'.states[slot + m.1]? =
    some { term := y.term m.2, child0 := nilState, free := false, up := b.slot p }
  old : ∀ x, x < b.states.length → x ≠ b.slot p → (∀ m ∈ y.moves p, slot + m.1 ≠ x) →
    b'.states[x]? = b.states[x]?
  new : ∀ x, b.states.length ≤ x → x < b'.states.length → (∀ m ∈ y.moves p, slot + m.1 ≠ x) →
    b'.states[x]? = some DaState.new
  backOld : ∀ x, x < b.x2y.length → (∀ m ∈ y.moves p, slot + m.1 ≠ x) → b'.x2y[x]? = b.x2y[x]?
  backNew : ∀ m ∈ y.moves p, b'.x2y[slot + m.1]? = some (some m.2)
  y2xLen : b'.y2x.length = b.y2x.length
  lengths : b'.x2y.length = b'.states.length
  grown : b.states.length ≤ b'.states.length
  mono : b.realSize ≤ b'.realSize
  real : ∀ m ∈ y.moves p, slot + m.1 < b'.realSize
  realLe : b'.realSize ≤ b'.states.length

/-- The effect of a visit, as long as the slots can be told. -/
theorem visit_effect (htrie : TrieShaped y) (hsigma : y.sigma ≤ sigma)
    (h : Inv y b seen (p :: rest) currSlot) :
    ∃ b' slot', visit y b currSlot p = some (b', slot') ∧ currSlot ≤ slot' ∧
      slot' ≤ b.realSize ∧ b.realSize ≤ b'.realSize ∧ b'.realSize ≤ b.realSize + sigma ∧
      (b'.realSize ≤ maxState → Visited y b b' (seen ++ p :: rest) p slot') := by
  have hp : p ∈ seen ++ p :: rest := mem_append_right _ mem_cons_self
  -- a state with children is not the only one
  have htwo : y.moves p ≠ [] → 2 ≤ b.states.length := by
    intro hne
    obtain ⟨m, hm⟩ := exists_mem_of_ne_nil _ hne
    have h1 := htrie.root p m hm
    have h2 := y.targets p m hm
    have h3 := h.grown
    omega
  have hreal := h.realLe
  -- first a base is looked for, then the children are placed
  obtain ⟨a, slot, hfind, hext, hle, hleReal, hfit⟩ := findSlot_spec h.freeFrom htwo h.slotLe
    (show b.realSize - currSlot < b.states.length + 1 by omega)
  have hchild := h.fitting_new hext hle hfit
  have hlenLe := hext.length_le
  obtain ⟨s, hs, -⟩ := h.fresh p mem_cons_self
  have hpslot := h.used p hp
  have hpA : b.slot p < a.states.length := by omega
  have hlens := hext.lengths h.lengths
  have hset : (a.states.set (b.slot p) (s.setChild0 slot)).length = a.states.length := length_set
  obtain ⟨b', hrun, hput⟩ := @placeChildren_spec y (b.slot p) slot
    { b with states := a.states.set (b.slot p) (s.setChild0 slot), x2y := a.x2y } (y.moves p)
    (fun m hm => hset.symm ▸ (List.getElem_of_getElem? (hchild m hm).1).1)
    (hlens.trans hset.symm) (fun m hm => h.y2xLen.symm ▸ y.targets p m hm)
    (letters_nodup y p) (htrie.targets_nodup p)
  have hlen : b'.states.length = a.states.length := hput.statesLen.trans hset
  have hvisit : visit y b currSlot p = some (b', slot) := by
    unfold visit
    rw [hfind, bind_some, Arrays.y2x_eq (h.y2xLen ▸ h.small p hp), bind_some,
      hext.state hs, bind_some]
    dsimp only
    rw [hrun]
    rfl
  have hmono : b.realSize ≤ b'.realSize := hput.mono
  refine ⟨b', slot, hvisit, hle, hleReal, hmono, ?_, fun hfits => ?_⟩
  · rcases hput.tight with heq | ⟨m, hm, heq⟩
    · rw [heq]
      exact le_add_right _ _
    · have hletter := y.letters p m hm
      omega
  have hmax : maxState = 2 ^ 31 - 2 := rfl
  -- no child lies in the slot of its parent
  have hpNot : ∀ m ∈ y.moves p, slot + m.1 ≠ b.slot p :=
    fun m hm heq => (hchild m hm).2 p hp heq.symm
  refine { nobody := fun m hm => (hchild m hm).2, slotOld := fun q hq => ?_,
           slotNew := fun m hm => ?_, self := ⟨s, hs, ?_⟩, child := fun m hm => ?_,
           old := fun x hx hxp hxc => ?_, new := fun x hx hx' hxc => ?_,
           backOld := fun x hx hxc => ?_, backNew := hput.back,
           y2xLen := hput.y2xLen, lengths := ?_, grown := hlen ▸ hext.length_le,
           mono := hmono, real := hput.real, realLe := ?_ }
  · exact congrArg (·.getD nilState) (hput.y2x q hq)
  · show b'.y2x[m.2]?.getD _ = _
    have hlt := hput.real m hm
    rw [hput.slots m hm, getD_some, mod_eq_of_lt (by omega)]
  · rw [hput.state _ hpNot, getElem?_set_self hpA, setChild0_eq s (by omega)]
  · rw [hput.child m hm _ ((getElem?_set_ne (hpNot m hm).symm).trans (hchild m hm).1),
      childCell_new y (by omega)]
  · rw [hput.state x hxc, getElem?_set_ne (Ne.symm hxp)]
    exact hext.old hx
  · have hxa : x < a.states.length := hlen ▸ hx'
    rw [hput.state x hxc, getElem?_set_ne (by omega)]
    rcases hext.cases (getElem?_eq_getElem hxa) with hcase | ⟨-, hcase⟩
    · exact absurd (List.getElem_of_getElem? hcase).1 hx.not_gt
    · rw [getElem?_eq_getElem hxa, hcase]
  · rw [hput.x2y x hxc]
    exact hext.old_x2y hx
  · rw [hput.x2yLen, hlen]
    exact hlens
  · rw [hlen]
    rcases hput.tight with heq | ⟨m, hm, heq⟩
    · exact heq.trans_le (hreal.trans hlenLe)
    · rw [heq]
      exact (List.getElem_of_getElem? (hchild m hm).1).1

/-- The states that have been found after a visit of `p`. -/
theorem mem_found {q : Nat} : q ∈ (seen ++ [p]) ++ ((y.moves p).map Prod.snd ++ rest) ↔
    q ∈ seen ++ p :: rest ∨ ∃ m ∈ y.moves p, m.2 = q := by
  simp only [mem_append]
  grind

/-! ## The invariant after a visit -/

section Visit

variable {slot q : Nat} {b' : Arrays} (htrie : TrieShaped y)
  (h : Inv y b seen (p :: rest) currSlot) (hv : Visited y b b' (seen ++ p :: rest) p slot)

include htrie h

/-- The children are new and different from each other. -/
theorem Inv.found_nodup : ((seen ++ [p]) ++ ((y.moves p).map Prod.snd ++ rest)).Nodup := by
  have hperm : ((seen ++ [p]) ++ ((y.moves p).map Prod.snd ++ rest)).Perm
      ((y.moves p).map Prod.snd ++ (seen ++ p :: rest)) := by
    refine (perm_append_comm_assoc _ _ _).trans (List.Perm.append_left _ ?_)
    rw [append_assoc]
    exact .refl _
  refine hperm.nodup_iff.mpr (nodup_append.mpr ⟨htrie.targets_nodup p, h.nodup, ?_⟩)
  rintro t ht q hq rfl
  obtain ⟨m, hm, rfl⟩ := mem_map.mp ht
  exact h.children_new htrie m hm hq

include hv

/-- States that were placed keep their slots. -/
theorem Visited.slot_same (hq : q ∈ seen ++ p :: rest) : b'.slot q = b.slot q := by
  refine hv.slotOld q (fun m hm heq => h.children_new htrie m hm ?_)
  rw [heq]
  exact hq

/-- The cells of the states found before stay, but for the visited one. -/
theorem Visited.cell_same (hq : q ∈ seen ++ p :: rest) (hne : q ≠ p) :
    b'.states[b'.slot q]? = b.states[b.slot q]? := by
  have hp : p ∈ seen ++ p :: rest := mem_append_right _ mem_cons_self
  rw [hv.slot_same htrie h hq]
  exact hv.old _ (lt_of_lt_of_le (h.used q hq) h.realLe)
    (fun heq => hne (h.slot_inj hq hp heq)) (fun m hm => (hv.nobody m hm q hq).symm)

/-- The two maps agree after a visit. -/
theorem Visited.back (hq : q ∈ (seen ++ [p]) ++ ((y.moves p).map Prod.snd ++ rest)) :
    b'.x2y[b'.slot q]? = some (some q) := by
  rcases mem_found.mp hq with hq | ⟨m, hm, rfl⟩
  · have hin := lt_of_lt_of_le (h.used q hq) h.realLe
    rw [hv.slot_same htrie h hq,
      hv.backOld _ (h.lengths ▸ hin) (fun m hm => (hv.nobody m hm q hq).symm)]
    exact h.back q hq
  · rw [hv.slotNew m hm]
    exact hv.backNew m hm

/-- A slot that is nobody's is new. -/
theorem Visited.empty {x : Nat} (hx : x < b'.states.length)
    (hne : ∀ q ∈ (seen ++ [p]) ++ ((y.moves p).map Prod.snd ++ rest), b'.slot q ≠ x) :
    b'.states[x]? = some DaState.new := by
  have hkid : ∀ m ∈ y.moves p, slot + m.1 ≠ x := by
    intro m hm
    rw [← hv.slotNew m hm]
    exact hne m.2 (mem_found.mpr (.inr ⟨m, hm, rfl⟩))
  have hold : ∀ q ∈ seen ++ p :: rest, b.slot q ≠ x := by
    intro q hq
    rw [← hv.slot_same htrie h hq]
    exact hne q (mem_found.mpr (.inl hq))
  by_cases hlt : x < b.states.length
  · rw [hv.old x hlt (hold p (mem_append_right _ mem_cons_self)).symm hkid]
    exact h.empty x hlt hold
  · exact hv.new x (not_lt.mp hlt) hx hkid

/-- The root's slot still looks free. -/
theorem Visited.rootCell : ∃ s, b'.states[0]? = some s ∧ s.free = true ∧ s.term = false := by
  obtain ⟨r, hr, hfree, hterm⟩ := h.rootCell
  by_cases hzero : p = 0
  · obtain ⟨s, hs, hs'⟩ := hv.self
    rw [hzero, h.rootSlot] at hs hs'
    rw [hr] at hs
    obtain rfl := some.inj hs
    exact ⟨_, hs', hfree, hterm⟩
  · have hmove := hv.cell_same htrie h h.root (Ne.symm hzero)
    rw [hv.slot_same htrie h h.root, h.rootSlot] at hmove
    exact ⟨r, hmove.trans hr, hfree, hterm⟩

/-- The visited state has its base, the others keep theirs. -/
theorem Visited.base (hpos : 1 ≤ slot) (hle : slot ≤ b'.realSize) (hq : q ∈ seen ++ [p]) :
    ∃ s, b'.states[b'.slot q]? = some s ∧ 1 ≤ s.child0 ∧ s.child0 ≤ b'.realSize ∧
      ∀ m ∈ y.moves q, b'.slot m.2 = s.child0 + m.1 := by
  rcases mem_append.mp hq with hq | hq
  · have hne : q ≠ p := (nodup_append.mp h.nodup).2.2 q hq p mem_cons_self
    obtain ⟨r, hr, hr1, hr2, hr3⟩ := h.base q hq
    refine ⟨r, (hv.cell_same htrie h (mem_append_left _ hq) hne).trans hr, hr1,
      hr2.trans hv.mono, fun m hm => ?_⟩
    rw [hv.slot_same htrie h (h.closed q hq m hm)]
    exact hr3 m hm
  · obtain rfl := mem_singleton.mp hq
    obtain ⟨s, -, hs'⟩ := hv.self
    rw [hv.slot_same htrie h (mem_append_right _ mem_cons_self)]
    exact ⟨_, hs', hpos, hle, hv.slotNew⟩

/-- What has only been found has no base. -/
theorem Visited.fresh (hq : q ∈ (y.moves p).map Prod.snd ++ rest) :
    ∃ s, b'.states[b'.slot q]? = some s ∧ s.child0 = nilState := by
  rcases mem_append.mp hq with hq | hq
  · obtain ⟨m, hm, rfl⟩ := mem_map.mp hq
    rw [hv.slotNew m hm]
    exact ⟨_, hv.child m hm, rfl⟩
  · have hmem : q ∈ seen ++ p :: rest := mem_append_right _ (mem_cons_of_mem _ hq)
    have hne : q ≠ p :=
      fun heq => (nodup_cons.mp (nodup_append.mp h.nodup).2.1).1 (heq ▸ hq)
    obtain ⟨r, hr, hnil⟩ := h.fresh q (mem_cons_of_mem _ hq)
    exact ⟨r, (hv.cell_same htrie h hmem hne).trans hr, hnil⟩

/-- The cell of a child of a visited state. -/
theorem Visited.cell (hq : q ∈ seen ++ [p]) {m : Nat × Nat} (hm : m ∈ y.moves q) :
    ∃ t, b'.states[b'.slot m.2]? = some t ∧ t.free = false ∧ t.up = b'.slot q ∧
      t.term = y.term m.2 := by
  have hp : p ∈ seen ++ p :: rest := mem_append_right _ mem_cons_self
  rcases mem_append.mp hq with hq | hq
  · obtain ⟨t, ht, hfree, hup, hterm⟩ := h.cell q hq m hm
    rw [hv.slot_same htrie h (mem_append_left _ hq)]
    by_cases heq : m.2 = p
    · -- the cell of the visited state keeps all but its base
      obtain ⟨s, hs, hs'⟩ := hv.self
      rw [heq, hv.slot_same htrie h hp]
      rw [heq, hs] at ht
      obtain rfl := some.inj ht
      exact ⟨_, hs', hfree, hup, heq ▸ hterm⟩
    · exact ⟨t, (hv.cell_same htrie h (h.closed q hq m hm) heq).trans ht, hfree, hup, hterm⟩
  · obtain rfl := mem_singleton.mp hq
    rw [hv.slot_same htrie h hp, hv.slotNew m hm]
    exact ⟨_, hv.child m hm, rfl, rfl, rfl⟩

/-- **THE INVARIANT** holds after a visit. -/
theorem Visited.inv (hle : currSlot ≤ slot) (hleReal : slot ≤ b.realSize)
    (hfits : b'.realSize ≤ maxState) {next : Nat} (hnext1 : currSlot ≤ next)
    (hnext2 : next ≤ slot) :
    Inv y b' (seen ++ [p]) ((y.moves p).map Prod.snd ++ rest) next := by
  have hslotPos := h.slotPos
  have hmono := hv.mono
  have hsame := fun q => hv.slot_same htrie h (q := q)
  refine { nodup := h.found_nodup htrie, small := fun q hq => ?_,
           root := mem_found.mpr (.inl h.root), origin := fun t ht hne => ?_,
           closed := fun q hq m hm => ?_, y2xLen := hv.y2xLen.trans h.y2xLen,
           lengths := hv.lengths, grown := h.grown.trans hv.grown,
           rootSlot := (hsame 0 h.root).trans h.rootSlot, unseen := fun q hq => ?_,
           back := fun q => hv.back htrie h, empty := fun x => hv.empty htrie h,
           used := fun q hq => ?_, slotPos := hslotPos.trans hnext1, slotLe := by omega,
           realLe := hv.realLe, fits := hfits, rootCell := hv.rootCell htrie h,
           base := fun q => hv.base htrie h (by omega) (by omega),
           fresh := fun q => hv.fresh htrie h, cell := fun q hq m => hv.cell htrie h hq }
  · rcases mem_found.mp hq with hq | ⟨m, hm, rfl⟩
    · exact h.small q hq
    · exact y.targets p m hm
  · rcases mem_found.mp ht with ht | ⟨m, hm, rfl⟩
    · obtain ⟨q, hq, c, hc⟩ := h.origin t ht hne
      exact ⟨q, mem_append_left _ hq, c, hc⟩
    · exact ⟨p, mem_append_right _ (mem_singleton_self p), m.1, hm⟩
  · rcases mem_append.mp hq with hq | hq
    · exact mem_found.mpr (.inl (h.closed q hq m hm))
    · rw [mem_singleton.mp hq] at hm
      exact mem_found.mpr (.inr ⟨m, hm, rfl⟩)
  · rw [hv.slotOld q (fun m hm heq => hq (mem_found.mpr (.inr ⟨m, hm, heq⟩)))]
    exact h.unseen q (fun hmem => hq (mem_found.mpr (.inl hmem)))
  · rcases mem_found.mp hq with hq | ⟨m, hm, rfl⟩
    · rw [hsame q hq]
      exact lt_of_lt_of_le (h.used q hq) hmono
    · rw [hv.slotNew m hm]
      exact hv.real m hm

end Visit

end DoubleArray
