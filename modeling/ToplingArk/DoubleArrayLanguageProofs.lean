import ToplingArk.DoubleArrayRunProofs

/-! # The double array of a trie

    The invariant holds after every round of the loop.  At the end the parent of a slot
    decides every transition: a free slot has no state for a parent, and a used one has its
    own.  Two things are not as they might be expected: nothing copies the final bit of the
    root, and the slots of the padding behind the last used one keep the base that is none. -/

namespace DoubleArray

open Automata DfaSetOp TreeWalker List Option Nat

variable {y : Src} {b b' r : Arrays} {seen pend : List Nat} {currSlot slot : Nat}

/-! ## The loop -/

/-- Placing a child never lowers `real_size`. -/
theorem placeChild_mono {xParent : Nat} {m : Nat × Nat}
    (h : placeChild y xParent slot b m = some b') : b.realSize ≤ b'.realSize := by
  obtain ⟨s, -, hs⟩ := bind_eq_some_iff.mp h
  split at hs
  · rw [← some.inj hs]
    dsimp only
    split
    · omega
    · exact le_rfl
  · cases hs

variable {fuel p : Nat} {M : Walker}

/-- Visiting a state never lowers `real_size`. -/
theorem visit_mono (h : visit y b currSlot p = some (b', slot)) : b.realSize ≤ b'.realSize := by
  obtain ⟨r, -, hr⟩ := bind_eq_some_iff.mp h
  obtain ⟨xParent, -, hx⟩ := bind_eq_some_iff.mp hr
  obtain ⟨s, -, hs⟩ := bind_eq_some_iff.mp hx
  obtain ⟨b1, hrun, heq⟩ := map_eq_some_iff.mp hs
  obtain ⟨rfl, -⟩ := Prod.mk.inj heq
  exact @Runs.run_invariant _ _ (fun c => b.realSize ≤ c.realSize) _ _ le_rfl
    (fun c m c' hc hstep => hc.trans (placeChild_mono hstep)) _ _ hrun

theorem walkAll_mono {w : M.W} (h : walkAll y M fuel w currSlot b = some r) :
    b.realSize ≤ r.realSize := by
  induction fuel generalizing w currSlot b with
  | zero => cases h
  | succ fuel ih =>
    unfold walkAll at h
    split at h
    · rw [← some.inj h]
    · obtain ⟨x, -, hx⟩ := bind_eq_some_iff.mp h
      obtain ⟨v, hv, hrest⟩ := bind_eq_some_iff.mp hx
      exact le_trans (visit_mono hv) (ih hrest)

section

variable {w : M.W} (htrie : TrieShaped y) (hsigma : y.sigma ≤ sigma) (L : Lawful M)
  (h : Inv y b seen (L.pending w) currSlot)

include htrie hsigma h

/-- One round of the walk returns and keeps the invariant. -/
theorem round_spec (hne : L.pending w ≠ []) (fuel : Nat) :
    ∃ p w' b' next, walkAll y M (fuel + 1) w currSlot b = walkAll y M fuel w' next b' ∧
      b'.realSize ≤ b.realSize + sigma ∧
      (b'.realSize ≤ maxState → Inv y b' (seen ++ [p]) (L.pending w') next) := by
  obtain ⟨p, w1, hnext, hperm⟩ := L.next_spec w hne
  have h1 := h.perm hperm
  obtain ⟨b', slot, hvisit, hle, hleReal, -, hgrow, heffect⟩ := visit_effect htrie hsigma h1
  refine ⟨p, M.put w1 ((y.moves p).map Prod.snd), b',
    currSlot + (slot - currSlot) / huristicFactor, ?_, hgrow, fun hfits => ?_⟩
  · have hgo : M.finished w ≠ true := fun hf => hne ((L.finished_iff w).mp hf)
    show (if M.finished w then _ else _) = _
    rw [if_neg hgo, hnext, bind_some, hvisit]
    rfl
  · have hjump : (slot - currSlot) / huristicFactor ≤ slot - currSlot := div_le_self _ _
    exact ((heffect hfits).inv htrie h1 hle hleReal hfits (le_add_right _ _)
      (by omega)).perm (L.put_perm w1 _).symm

/-- **THE LOOP** keeps the invariant, as long as the slots can be told. -/
theorem walkAll_right (hrun : walkAll y M fuel w currSlot b = some r)
    (hfits : r.realSize ≤ maxState) : ∃ seen' next, Inv y r seen' [] next := by
  induction fuel generalizing w currSlot b seen with
  | zero => cases hrun
  | succ fuel ih =>
    by_cases hnil : L.pending w = []
    · have hdone : walkAll y M (fuel + 1) w currSlot b = some b := by
        show (if M.finished w then _ else _) = _
        rw [if_pos ((L.finished_iff w).mpr hnil)]
      rw [hdone] at hrun
      rw [← some.inj hrun]
      exact ⟨seen, currSlot, hnil ▸ h⟩
    · obtain ⟨p, w', b', next, hstep, -, hinv⟩ := round_spec htrie hsigma L h hnil fuel
      rw [hstep] at hrun
      exact ih (hinv (le_trans (walkAll_mono hrun) hfits)) hrun

/-- **THE LOOP** ends: every state is visited once. -/
theorem walkAll_returns (hfuel : y.states < fuel + seen.length)
    (hroom : b.realSize + sigma * (y.states - seen.length) ≤ maxState) :
    ∃ r, walkAll y M fuel w currSlot b = some r ∧
      r.realSize ≤ b.realSize + sigma * (y.states - seen.length) := by
  have hcount := h.length_le
  rw [length_append] at hcount
  induction fuel generalizing w currSlot b seen with
  | zero => omega
  | succ fuel ih =>
    by_cases hnil : L.pending w = []
    · refine ⟨b, ?_, le_add_right _ _⟩
      show (if M.finished w then _ else _) = _
      rw [if_pos ((L.finished_iff w).mpr hnil)]
    obtain ⟨p, w', b', next, hstep, hgrow, hinv⟩ := round_spec htrie hsigma L h hnil fuel
    have hpos := length_pos_iff.mpr hnil
    -- one state less, one alphabet more
    have hless : sigma * (y.states - seen.length) =
        sigma * (y.states - (seen ++ [p]).length) + sigma := by
      rw [length_append, length_singleton, ← mul_succ]
      congr 1
      omega
    have hinv' := hinv (by omega)
    have hcount' := hinv'.length_le
    rw [length_append] at hcount'
    obtain ⟨r, hr, hreal⟩ := ih hinv' (by rw [length_append, length_singleton]; omega)
      (by omega) hcount'
    exact ⟨r, hstep.trans hr, by omega⟩

end

/-- The loop begins with the root in the first slot. -/
theorem start_inv (htrie : TrieShaped y) : Inv y (start y) [] [0] 1 := by
  have hpos := htrie.pos
  -- only the root has a slot yet
  have hslot : ∀ p, (start y).slot p = if p = 0 then 0 else nilState := by
    intro p
    show ((replicate y.states nilState).set 0 0)[p]?.getD nilState = _
    by_cases hp : p = 0
    · subst hp
      rw [getElem?_set_self (by rw [length_replicate]; exact hpos)]
      rfl
    · rw [getElem?_set_ne (Ne.symm hp), getElem?_replicate]
      split
      · rfl
      · rfl
  have hcell : ∀ x, x < y.states * 3 / 2 → (start y).states[x]? = some DaState.new := by
    intro x hx
    show (replicate _ _)[x]? = _
    rw [getElem?_replicate, if_pos hx]
  have hone : 0 < y.states * 3 / 2 := by omega
  have hzero : (start y).slot 0 = 0 := hslot 0
  have honly : ∀ p ∈ [] ++ [0], p = 0 := fun p hp => mem_singleton.mp hp
  refine { nodup := nodup_singleton 0, small := fun p hp => ?_, root := mem_singleton_self 0,
           origin := fun t ht hne => absurd (honly t ht) hne, closed := fun p hp => (nomatch hp),
           y2xLen := ?_, lengths := ?_, grown := ?_, rootSlot := hzero, unseen := fun p hp => ?_,
           back := fun p hp => ?_, empty := fun x hx _ => ?_, used := fun p hp => ?_,
           slotPos := le_refl 1, slotLe := le_refl 1, realLe := ?_,
           fits := show 1 ≤ maxState by decide,
           rootCell := ⟨_, hcell 0 hone, rfl, rfl⟩, base := fun p hp => (nomatch hp),
           fresh := fun p hp => ?_, cell := fun p hp => (nomatch hp) }
  · rw [honly p hp]
    exact hpos
  · show ((replicate _ _).set 0 0).length = _
    rw [length_set, length_replicate]
  · show ((replicate _ _).set 0 _).length = (replicate _ _).length
    rw [length_set, length_replicate, length_replicate]
  · show _ ≤ (replicate _ _).length
    rw [length_replicate]
  · have hne : p ≠ 0 := fun heq => hp (mem_singleton.mpr heq)
    rw [hslot, if_neg hne]
  · rw [honly p hp, hzero]
    exact getElem?_set_self (by rw [length_replicate]; exact hone)
  · refine hcell x ?_
    have hlen : (start y).states.length = y.states * 3 / 2 := length_replicate
    rw [← hlen]
    exact hx
  · rw [honly p hp, hzero]
    exact one_pos
  · show 1 ≤ (replicate _ _).length
    rw [length_replicate]
    exact hone
  · rw [mem_singleton.mp hp, hzero]
    exact ⟨_, hcell 0 hone, rfl⟩

/-! ## The end -/

/-- The slots at the end. -/
structure Finished (extra : Nat) (seen : List Nat) (b r : Arrays) : Prop where
  y2x : r.y2x = b.y2x
  length : r.states.length = b.realSize + extra + sigma
  used : ∀ p ∈ seen, p ≠ 0 → r.states[b.slot p]? = b.states[b.slot p]?
  root : ∃ s, b.states[0]? = some s ∧ r.states[0]? = some { s with free := false, up := 0 }
  unused : ∀ x, x < b.realSize → (∀ p ∈ seen, b.slot p ≠ x) →
    r.states[x]? = some { DaState.new with child0 := 1 }
  padding : ∀ x, b.realSize ≤ x → x < r.states.length → r.states[x]? = some DaState.new

/-- **THE END** gives the unused slots a base and the root its parent. -/
theorem finish_spec (h : Inv y b seen [] currSlot) (extra : Nat) :
    ∃ r, finish extra b = some r ∧ Finished extra seen b r := by
  have hreal := h.realLe
  have hfits := h.fits
  have hmax : maxState = 2 ^ 31 - 2 := rfl
  have hnil : nilState = 2 ^ 31 - 1 := rfl
  have hroot0 : b.slot 0 < b.realSize := h.used 0 h.root
  rw [h.rootSlot] at hroot0
  have hmem : ∀ p ∈ seen, p ∈ seen ++ [] := fun p hp => mem_append_left _ hp
  generalize ha : b.toSlots.resize (b.realSize + extra + sigma) = a
  have hlen : a.states.length = b.realSize + extra + sigma := by
    rw [← ha, Slots.resize_length]
  have hget : ∀ x, x < b.realSize → a.states[x]? = b.states[x]? := by
    intro x hx
    rw [← ha]
    show (b.states.take _ ++ replicate _ _)[x]? = _
    rw [getElem?_append_left (by rw [length_take]; omega), getElem?_take,
      if_pos (by omega)]
  have hbehind : ∀ x, b.realSize ≤ x → x < b.realSize + extra + sigma →
      a.states[x]? = some DaState.new := by
    intro x hx hx'
    rw [← ha]
    show (b.states.take _ ++ replicate _ _)[x]? = _
    by_cases hlt : x < b.states.length
    · rw [getElem?_append_left (by rw [length_take]; omega), getElem?_take,
        if_pos hx']
      exact h.empty x hlt (fun p hp heq => absurd (h.used p hp) (by omega))
    · rw [getElem?_append_right (by rw [length_take]; omega), getElem?_replicate,
        length_take, if_pos (by omega)]
  -- a state has a base, so nothing is filled in
  have hkeep : ∀ p ∈ seen, ∀ s, b.states[b.slot p]? = some s →
      fillChild0 b.realSize (b.slot p) s = s := by
    intro p hp s hs
    obtain ⟨t, ht, -, hle, -⟩ := h.base p hp
    rw [hs] at ht
    obtain rfl := some.inj ht
    unfold fillChild0
    rw [if_neg (fun hc => by omega)]
  have hfill : ∀ x, (a.states.mapIdx (fillChild0 b.realSize))[x]? =
      a.states[x]?.map (fillChild0 b.realSize x) := fun x => getElem?_mapIdx
  have hseen0 : 0 ∈ seen := (append_nil seen) ▸ h.root
  obtain ⟨s, hs, -⟩ := h.rootCell
  have hs0 : (a.states.mapIdx (fillChild0 b.realSize))[0]? = some s := by
    rw [hfill, hget 0 hroot0, hs, map_some]
    have := hkeep 0 hseen0 s (by rw [h.rootSlot]; exact hs)
    rw [h.rootSlot] at this
    rw [this]
  refine ⟨{ b with states := (a.states.mapIdx (fillChild0 b.realSize)).set 0 (s.setParent 0),
                   x2y := a.x2y }, ?_, ?_⟩
  · unfold finish
    dsimp only
    rw [ha, hs0]
    rfl
  refine { y2x := rfl, length := ?_, used := fun p hp hne => ?_, root := ⟨s, hs, ?_⟩,
           unused := fun x hx hnobody => ?_, padding := fun x hx hx' => ?_ }
  · rw [length_set, length_mapIdx]
    exact hlen
  · have hpos := h.slot_pos (hmem p hp) hne
    obtain ⟨t, ht, -⟩ := h.base p hp
    rw [getElem?_set_ne (by omega), hfill, hget _ (h.used p (hmem p hp)), ht,
      map_some, hkeep p hp t ht]
  · rw [getElem?_set_self (List.getElem_of_getElem? hs0).1,
      setParent_eq s (Nat.two_pow_pos 31)]
  · have hx0 : x ≠ 0 := fun heq => hnobody 0 hseen0 (h.rootSlot.trans heq.symm)
    have hnew := h.empty x (by omega) (fun p hp => hnobody p (append_nil seen ▸ hp))
    rw [getElem?_set_ne (Ne.symm hx0), hfill, hget x hx, hnew, map_some]
    unfold fillChild0
    rw [if_pos ⟨hx, rfl⟩, setChild0_eq _ (by decide)]
  · rw [length_set, length_mapIdx, hlen] at hx'
    rw [getElem?_set_ne (by omega), hfill, hbehind x hx hx', map_some]
    unfold fillChild0
    rw [if_neg (fun hc => by omega)]

/-! ## Transitions -/

variable {r : Arrays} {extra : Nat}

section

variable (h : Inv y b seen [] currSlot) (hf : Finished extra seen b r)

include h hf

/-- A visited state has its children behind its base. -/
theorem Finished.cell (hp : p ∈ seen) :
    ∃ s, r.states[b.slot p]? = some s ∧ 1 ≤ s.child0 ∧
      s.child0 ≤ b.realSize ∧ ∀ m ∈ y.moves p, b.slot m.2 = s.child0 + m.1 := by
  obtain ⟨s, hs, hbase⟩ := h.base p hp
  by_cases hzero : p = 0
  · subst hzero
    rw [h.rootSlot] at hs ⊢
    obtain ⟨t, ht, hr⟩ := hf.root
    obtain rfl := mem_unique hs ht
    exact ⟨_, hr, hbase⟩
  · exact ⟨s, (hf.used p hp hzero).trans hs, hbase⟩

/-- The parent of a slot behind the first one, at the end: that of a child, or no number of a
    state. -/
theorem Finished.parent_cases {x : Nat} {t : DaState} (hpos : 1 ≤ x) (hx : r.states[x]? = some t) :
    (∃ p ∈ seen, ∃ m ∈ y.moves p, b.slot m.2 = x ∧ t.parent = b.slot p) ∨
      2 ^ 31 ≤ t.parent := by
  have hmem : ∀ q, q ∈ seen ++ [] ↔ q ∈ seen := fun q => by rw [append_nil]
  by_cases hlt : x < b.realSize
  · by_cases hsome : ∃ q ∈ seen, b.slot q = x
    · obtain ⟨q, hq, rfl⟩ := hsome
      have hne : q ≠ 0 := by
        rintro rfl
        rw [h.rootSlot] at hpos
        omega
      obtain ⟨p, hp, c, hc⟩ := h.origin q ((hmem q).mpr hq) hne
      obtain ⟨t', ht', hfree, hup, -⟩ := h.cell p hp _ hc
      rw [hf.used q hq hne] at hx
      obtain rfl := mem_unique hx ht'
      refine .inl ⟨p, hp, _, hc, rfl, ?_⟩
      unfold DaState.parent
      rw [hfree]
      exact hup
    · have hnobody : ∀ q ∈ seen, b.slot q ≠ x := fun q hq heq => hsome ⟨q, hq, heq⟩
      rw [hf.unused x hlt hnobody] at hx
      rw [← some.inj hx]
      exact .inr (by decide)
  · rw [hf.padding x (not_lt.mp hlt) (List.getElem_of_getElem? hx).1] at hx
    rw [← some.inj hx]
    exact .inr (by decide)

/-- **STATE_MOVE** leads to the slot of the child, and nowhere else. -/
theorem Finished.stateMove_eq (hp : p ∈ seen) {c : Nat} (hc : c < sigma) :
    stateMove r.states (b.slot p) c = some ((target (y.moves p) c).elim nilState b.slot) := by
  obtain ⟨s, hs, hpos, hle, hbase⟩ := hf.cell h hp
  have hin : s.child0 + c < r.states.length := by
    rw [hf.length]
    omega
  have hmemp : p ∈ seen ++ [] := mem_append_left _ hp
  have hsmall : b.slot p < 2 ^ 31 - 1 := h.slot_lt hmemp
  have hrun : stateMove r.states (b.slot p) c =
      some (if (r.states[s.child0 + c]).parent = b.slot p then s.child0 + c else nilState) := by
    unfold stateMove
    rw [hs, bind_some, getElem?_eq_getElem hin, map_some]
  rw [hrun]
  have hcell := getElem?_eq_getElem hin
  cases htarget : target (y.moves p) c with
  | some t =>
    -- the child has its parent
    have hm := mem_of_target htarget
    have hslot : b.slot t = s.child0 + c := hbase _ hm
    have hmemt := h.closed p hp _ hm
    have hne : t ≠ 0 := by
      rintro rfl
      rw [h.rootSlot] at hslot
      omega
    obtain ⟨t', ht', hfree, hup, -⟩ := h.cell p hp _ hm
    have hused := hf.used t (append_nil seen ▸ hmemt) hne
    rw [hslot] at hused
    have heq : r.states[s.child0 + c] = t' := by
      rw [hused] at hcell
      have ht'' : b.states[s.child0 + c]? = some t' := hslot ▸ ht'
      exact (mem_unique ht'' hcell).symm
    rw [heq]
    unfold DaState.parent
    rw [hfree, if_neg Bool.false_ne_true, if_pos hup]
    exact congrArg some hslot.symm
  | none =>
    rw [if_neg]
    · rfl
    intro hparent
    rcases hf.parent_cases h (by omega) hcell with ⟨q, hq, m, hm, hslot, hq'⟩ | hbig
    · -- a child of this state with this letter
      have heq : q = p := h.slot_inj (mem_append_left _ hq) hmemp (hq'.symm.trans hparent)
      subst heq
      have hletter : m.1 = c := by
        have := hbase m hm
        omega
      have hfound := target_of_mem (y.ascending q) hm
      rw [hletter, htarget] at hfound
      cases hfound
    · omega

/-- A letter leads from the slot of a state to the slot of its child. -/
theorem Finished.dfa_next (hsigma : y.sigma ≤ sigma) (hp : p ∈ seen) (c : Nat) :
    (dfa r.states).next (b.slot p) c = (y.dfa.next p c).map b.slot := by
  have hnext : y.dfa.next p c = target (y.moves p) c := rfl
  rw [hnext]
  show (if c < sigma then _ else none) = _
  split
  next hc =>
    rw [hf.stateMove_eq h hp hc, bind_some]
    cases htarget : target (y.moves p) c with
    | none => exact if_pos rfl
    | some t => exact if_neg (h.slot_lt (h.closed p hp _ (mem_of_target htarget))).ne
  next hc =>
    have hnone : target (y.moves p) c = none := by
      refine target_eq_none (fun m hm heq => hc ?_)
      have := y.letters p m hm
      omega
    rw [hnone]
    rfl

/-- The final bits are copied, but for the root's. -/
theorem Finished.dfa_final (hp : p ∈ seen) :
    (dfa r.states).final (b.slot p) = (decide (p ≠ 0) && y.term p) := by
  show (r.states[b.slot p]?).elim false DaState.term = _
  by_cases hzero : p = 0
  · subst hzero
    obtain ⟨s, hs, hroot⟩ := hf.root
    obtain ⟨t, ht, -, hterm⟩ := h.rootCell
    obtain rfl := mem_unique hs ht
    rw [h.rootSlot, hroot]
    exact hterm
  · obtain ⟨q, hq, c, hc⟩ := h.origin p (mem_append_left _ hp) hzero
    obtain ⟨t, ht, -, -, hterm⟩ := h.cell q hq _ hc
    rw [hf.used p hp hzero, ht, decide_eq_true hzero]
    exact hterm

end

/-! ## The result -/

/-- The double array says what the trie says. -/
structure Mirrors (y : Src) (extra : Nat) (r : Arrays) : Prop where
  words : ∀ u, (dfa r.states).accepts 0 u = y.dfa.accepts 0 u
  root : r.slot 0 = 0
  move : ∀ p, r.slot p ≠ nilState → ∀ c, c < sigma →
    stateMove r.states (r.slot p) c = some ((target (y.moves p) c).elim nilState r.slot)
  mapped : ∀ p, r.slot p ≠ nilState → ∀ m ∈ y.moves p, r.slot m.2 ≠ nilState
  inside : ∀ x s, x + extra + sigma < r.states.length → r.states[x]? = some s → ∀ c, c < sigma →
    s.child0 + c < r.states.length

/-- A finished array answers as the trie does. -/
theorem Finished.mirrors (h : Inv y b seen [] currSlot) (hf : Finished extra seen b r)
    (hsigma : y.sigma ≤ sigma) (hroot : y.term 0 = false) : Mirrors y extra r := by
  have hslot : r.slot = b.slot := by
    funext p
    show r.y2x[p]?.getD _ = b.y2x[p]?.getD _
    rw [hf.y2x]
  have hmem : ∀ q, q ∈ seen ++ [] → q ∈ seen := fun q hq => append_nil seen ▸ hq
  have hseen0 : 0 ∈ seen := hmem 0 h.root
  have hfound : ∀ p, b.slot p ≠ nilState → p ∈ seen := by
    intro p hp
    by_contra hnot
    exact hp (h.unseen p (fun hin => hnot (hmem p hin)))
  refine { words := fun u => ?_, root := ?_, move := fun p hp c hc => ?_,
           mapped := fun p hp m hm => ?_, inside := fun x s hx hs c hc => ?_ }
  -- slots and states simulate each other
  · have hrel : (dfa r.states).accepts (b.slot 0) = y.dfa.accepts 0 := by
      refine Dfa.accepts_eq_of_related (R := fun x p => p ∈ seen ∧ x = b.slot p) ?_ ?_
        ⟨hseen0, rfl⟩
      · rintro x p ⟨hp, rfl⟩
        rw [hf.dfa_final h hp]
        by_cases hzero : p = 0
        · subst hzero
          exact hroot.symm
        · rw [decide_eq_true hzero]
          exact Bool.true_and _
      · rintro x p c ⟨hp, rfl⟩
        rw [hf.dfa_next h hsigma hp c]
        cases hnext : y.dfa.next p c with
        | none => exact .none
        | some t => exact .some ⟨hmem t (h.closed p hp _ (mem_of_target hnext)), rfl⟩
    rw [h.rootSlot] at hrel
    exact congrFun hrel u
  · rw [hslot]
    exact h.rootSlot
  · rw [hslot] at hp ⊢
    exact hf.stateMove_eq h (hfound p hp) hc
  · rw [hslot] at hp ⊢
    exact (h.slot_lt (h.closed p (hfound p hp) m hm)).ne
  rw [hf.length] at hx ⊢
  have hreal : x < b.realSize := by omega
  -- a slot of no state got the base 1
  by_cases hsome : ∃ q ∈ seen, b.slot q = x
  · obtain ⟨q, hq, rfl⟩ := hsome
    obtain ⟨t, ht, -, hle, -⟩ := hf.cell h hq
    obtain rfl := mem_unique hs ht
    omega
  · rw [hf.unused x hreal (fun q hq heq => hsome ⟨q, hq, heq⟩)] at hs
    rw [← some.inj hs]
    show 1 + c < _
    omega

/-- **BUILD_FROM** gives a double array that says what the trie says, in every order, if the
    slots can be told; small enough tries always have one. -/
theorem build_from_mirrors (htrie : TrieShaped y) (hsigma : y.sigma ≤ sigma)
    (hroot : y.term 0 = false) (method : WalkMethod) (extra : Nat) :
    (∀ r, buildFrom y method extra = some r → r.states.length ≤ maxState → Mirrors y extra r) ∧
      (1 + sigma * (y.states + 1) + extra ≤ maxState →
        ∃ r, buildFrom y method extra = some r ∧ r.states.length ≤ maxState) := by
  have hstart : Inv y (start y) [] (method.lawful.pending (method.walker.root 0)) 1 := by
    rw [method.lawful.pending_root]
    exact start_inv htrie
  constructor
  · intro r hr hsize
    obtain ⟨b, hwalk, hfinish⟩ := bind_eq_some_iff.mp hr
    -- the size at the end bounds the slots that were used
    have hreal : b.realSize ≤ maxState := by
      obtain ⟨s, -, rfl⟩ := map_eq_some_iff.mp hfinish
      rw [length_set, length_mapIdx, Slots.resize_length] at hsize
      omega
    obtain ⟨seen, next, hinv⟩ := walkAll_right htrie hsigma method.lawful hstart hwalk hreal
    obtain ⟨r', hr', hdone⟩ := finish_spec hinv extra
    obtain rfl := mem_unique hr' hfinish
    exact hdone.mirrors hinv hsigma hroot
  intro hroom
  have hone : (start y).realSize = 1 := rfl
  have hmul : sigma * (y.states + 1) = sigma * y.states + sigma := mul_succ _ _
  obtain ⟨b, hwalk, hreal⟩ := walkAll_returns htrie hsigma method.lawful hstart
    (show y.states < y.states + 1 + [].length by simp) (by rw [length_nil, Nat.sub_zero]; omega)
  rw [length_nil, Nat.sub_zero] at hreal
  obtain ⟨seen, next, hinv⟩ := walkAll_right htrie hsigma method.lawful hstart hwalk (by omega)
  obtain ⟨r, hr, hdone⟩ := finish_spec hinv extra
  refine ⟨r, ?_, ?_⟩
  · unfold buildFrom
    rw [hwalk, bind_some, hr]
  · rw [hdone.length]
    omega

/-- A source of rows is a trie if no two transitions have the same target. -/
theorem trieShaped_ofRows {rows : List (List (Nat × Nat))} {term : Nat → Bool}
    {hfew : rows.length < 2 ^ 32}
    {hrows : ∀ row ∈ rows, Ascending row ∧ ∀ m ∈ row, m.1 < 256 ∧ m.2 < rows.length}
    (hpos : 0 < rows.length)
    (h : ∀ p < rows.length, ∀ m ∈ rows.getD p [], m.2 ≠ 0 ∧
      ∀ q < rows.length, ∀ m' ∈ rows.getD q [], m.2 = m'.2 → p = q ∧ m = m') :
    TrieShaped (.ofRows rows term hfew hrows) := by
  have hlt : ∀ p, ∀ m ∈ rows.getD p [], p < rows.length := by
    intro p m hm
    by_contra hge
    rw [getD_eq_getElem?_getD, getElem?_eq_none (not_lt.mp hge)] at hm
    cases hm
  exact { one := fun p q m hm m' hm' => (h p (hlt p m hm) m hm).2 q (hlt q m' hm') m' hm'
          root := fun p m hm => (h p (hlt p m hm) m hm).1
          pos := hpos }

/-- The words "ab", "ac" and "b". -/
def threeWords : Src :=
  .ofRows [[(97, 1), (98, 2)], [(98, 3), (99, 4)], [], [], []] (fun s => decide (2 ≤ s))
    (by decide) (by decide)

/-- A trie of five states in each walk order. -/
theorem build_from_mirrors_three_words :
    (∃ r, buildFrom threeWords .bfs 0 = some r ∧ Mirrors threeWords 0 r) ∧
    (∃ r, buildFrom threeWords .dfs 0 = some r ∧ Mirrors threeWords 0 r) ∧
    ∃ r, buildFrom threeWords .cfs 0 = some r ∧ Mirrors threeWords 0 r := by
  have hmethod : ∀ method, ∃ r, buildFrom threeWords method 0 = some r ∧
      Mirrors threeWords 0 r := by
    intro method
    obtain ⟨hright, hreturns⟩ := build_from_mirrors
      (show TrieShaped threeWords from trieShaped_ofRows (by decide) (by decide))
      (by decide) (by decide) method 0
    obtain ⟨r, hr, hsize⟩ := hreturns (by decide)
    exact ⟨r, hr, hright r hr hsize⟩
  exact ⟨hmethod .bfs, hmethod .dfs, hmethod .cfs⟩

/-- The word "b", with or without the empty word. -/
def oneWord (rootFinal : Bool) : Src :=
  .ofRows [[(98, 1)], []] (fun s => s == 1 || rootFinal) (by decide) (by decide)

/-- The final bit of the root is lost, and the last slot has no base inside the array. -/
theorem build_from_root_and_padding :
    (∃ r, buildFrom (oneWord true) .dfs 0 = some r ∧ (dfa r.states).accepts 0 [] = false ∧
      (oneWord true).dfa.accepts 0 [] = true) ∧
    ∃ r s, buildFrom (oneWord false) .dfs 0 = some r ∧ r.states[200]? = some s ∧
      ¬ s.child0 + 0 < r.states.length := by
  have hroot : (buildFrom (oneWord true) .dfs 0).any
      (fun r => !(dfa r.states).accepts 0 []) = true := by decide +kernel
  have hpad : (buildFrom (oneWord false) .dfs 0).any (fun r =>
      r.states[200]?.any (fun s => !decide (s.child0 + 0 < r.states.length))) = true := by
    decide +kernel
  obtain ⟨r, hr, hacc⟩ := (any_eq_true _ _).mp hroot
  obtain ⟨r', hr', hcell⟩ := (any_eq_true _ _).mp hpad
  obtain ⟨s, hs, hbase⟩ := (any_eq_true _ _).mp hcell
  refine ⟨⟨r, hr, ?_, rfl⟩, r', s, hr', hs, ?_⟩
  · exact (Bool.not_eq_true' _).mp hacc
  · exact of_decide_eq_false ((Bool.not_eq_true' _).mp hbase)

end DoubleArray
