import ToplingArk.OrderedBuilderProofs
import ToplingArk.StateRegisterProofs

/-! # Ordered_Builder — runs

    The builder with its register along a whole sequence of words. -/

namespace OnflyMinimize

open Automata Dfa List Option Function Nat

variable {R : Register State} {P : StateTp} {limit i size : Nat} {room : Option Nat}
  {L : LawfulRegister R (Ok P) limit room} {B : OrderedBuilder R} {regs word str : List Nat}
  {n : Nat} {p : Nat → Nat} {W words : List (List Nat)} {path : List (Option Nat)} {A : Store}

/-! ## merge_path -/

/-- The builder in the middle of `merge_path`. -/
structure Merging (L : LawfulRegister R (Ok P) limit room) (B : OrderedBuilder R)
    (regs : List Nat) (n : Nat) (p : Nat → Nat) (W : List (List Nat)) : Prop where
  built : Built P B.au regs B.lastWord n p W
  holds : L.Holds B.au.state? B.reg B.au.totalStates regs
  path : ∀ i, i ≤ n → pathAt B.path i = some (p i)
  fits : ∀ m ∈ room, regs.length ≤ m

/-- A state that accepts something, as far as its own data says. -/
def Alive (P : StateTp) (A : Store) (i : Nat) : Prop :=
  (A.dfa P).final i = true ∨ ∃ c t, (A.dfa P).next i c = some t

/-- The register has no place for the states that are left behind. -/
def Overflows (P : StateTp) (room : Option Nat) (word : List Nat) (n : Nat) (p : Nat → Nat)
    (W : List (List Nat)) : Prop :=
  ∃ m ∈ room, ∃ A regs n', n ≤ n' ∧ m < regs.length ∧ Built P A regs word n' p W

theorem pathAt_set_of_ne {j : Nat} (h : j ≠ i) (o : Option Nat) :
    pathAt (path.set j o) i = pathAt path i := by
  unfold pathAt
  rw [getElem?_set_ne h]

/-- **ONE ROUND** of `merge_path`. -/
theorem mergeStep_spec (h : Merging L B regs (n + 1) p W) (hlive : Alive P B.au (p (n + 1))) :
    (∃ B' regs', mergeStep P B (n + 1) = some (B', true) ∧ B'.lastWord = B.lastWord ∧
      B'.path.length = B.path.length ∧ B'.au.pool.size ≤ B.au.pool.size ∧
      Alive P B'.au (p n) ∧ Merging L B' regs' n p W) ∨
    (mergeStep P B (n + 1) = none ∧ Overflows P room B.lastWord n p W) := by
  have hb := h.built
  obtain ⟨x, hx⟩ := hb.states (n + 1) le_rfl
  obtain ⟨s, hs⟩ := hb.states n (le_succ n)
  obtain ⟨c, hc⟩ := hb.spine.letter (lt_succ_self n)
  obtain ⟨hedge, -⟩ := hb.spine.edge n c (lt_succ_self n) hc
  have hfresh := hb.spine.fresh (n + 1) le_rfl
  have hxlt : p (n + 1) < B.au.totalStates := state?_lt hx
  have hpath := h.path (n + 1) le_rfl
  have hok := hb.store.ok _ x hx
  by_cases hex : ∃ y ∈ regs, B.au.state? y = some x
  · -- a registered state takes its place
    obtain ⟨y, hy, hyx⟩ := hex
    have hfind := L.find_old h.holds hxlt hfresh hx hok hy hyx
    have hyne := ne_of_mem_of_not_mem hy hfresh
    obtain ⟨A1, A2, old, hset, hdel, htotal, hsize, hregs, hnext, hbuilt⟩ :=
      hb.merge hc hy (hyx.trans hx.symm)
    have herase : R.erase B.au.state? B.reg (p n) = some B.reg := by
      refine L.erase_absent h.holds (state?_lt hs) (hb.spine.fresh n (le_succ n)) hs
        (hb.store.ok _ s hs) (fun r hr heq => ?_)
      -- only the parent leads to the last open state
      have := dfa_next_congr (P := P) (heq.trans hs.symm)
      rw [← this] at hedge
      exact hfresh (hb.spine.layered.closed r c _ hr hedge)
    refine .inl ⟨{ B with au := A2, reg := B.reg, path := B.path.set (n + 1) (some y) }, regs, ?_,
      rfl, length_set, hsize, .inr ⟨c, y, hnext⟩,
      { built := hbuilt, holds := ?_, path := ?_, fits := h.fits }⟩
    · unfold mergeStep
      rw [hpath, bind_some, hfind, bind_some]
      rw [if_neg hyne, Nat.add_sub_cancel, h.path n (le_succ n), bind_some, herase, bind_some,
        hc, bind_some, hset, bind_some, hdel]
      rfl
    · rw [htotal]
      exact L.congr h.holds hregs
    · intro i hi
      rw [pathAt_set_of_ne (by omega)]
      exact h.path i (le_succ_of_le hi)
  -- the state is new
  have hnew : ∀ y ∈ regs, B.au.state? y ≠ some x := fun y hy heq => hex ⟨y, hy, heq⟩
  have hbuilt := hb.register hlive (fun y hy heq => hnew y hy (heq.trans hx))
  by_cases hroom : ∀ m ∈ room, regs.length < m
  · obtain ⟨reg', hfind, hholds⟩ :=
      L.find_new h.holds hxlt hfresh hb.spine.nodup hx hok hnew hroom
    refine .inl ⟨{ B with reg := reg' }, p (n + 1) :: regs, ?_, rfl, rfl, le_rfl,
      .inr ⟨c, _, hedge⟩,
      { built := hbuilt, holds := hholds, path := fun i hi => h.path i (le_succ_of_le hi),
        fits := fun m hm => hroom m hm }⟩
    unfold mergeStep
    rw [hpath, bind_some, hfind, bind_some]
    rw [if_pos rfl]
  obtain ⟨m, hm⟩ := not_forall.mp hroom
  obtain ⟨hm, hlen⟩ := Classical.not_imp.mp hm
  have hle := not_lt.mp hlen
  refine .inr ⟨?_, m, hm, B.au, p (n + 1) :: regs, n, le_refl n,
    lt_succ_of_le hle, hbuilt⟩
  unfold mergeStep
  rw [hpath, bind_some, L.find_full h.holds hxlt hfresh hb.spine.nodup hx hok hnew ⟨m, hm, hle⟩]
  rfl

/-- **THE LOOP** of `merge_path`. -/
theorem mergeLoop_spec {k : Nat} (h : Merging L B regs (n + k) p W)
    (hlive : 0 < k → Alive P B.au (p (n + k))) :
    (∃ B' regs', mergeLoop P n k B = some B' ∧ B'.lastWord = B.lastWord ∧
      B'.path.length = B.path.length ∧ B'.au.pool.size ≤ B.au.pool.size ∧
      Merging L B' regs' n p W) ∨
    (mergeLoop P n k B = none ∧ Overflows P room B.lastWord n p W) := by
  induction k generalizing B regs with
  | zero => exact .inl ⟨B, regs, rfl, rfl, rfl, le_rfl, h⟩
  | succ k ih =>
    have hlive := hlive (succ_pos k)
    rw [← add_assoc] at h hlive
    rcases mergeStep_spec h hlive with
      ⟨B1, regs1, hstep, hword, hlen, hsize, hlive1, h1⟩ | ⟨hstep, hover⟩
    · have hrun : mergeLoop P n (k + 1) B = mergeLoop P n k B1 := by
        show (mergeStep P B (n + k + 1)).bind _ = _
        rw [hstep, bind_some, if_pos rfl]
      rw [hrun, ← hword, ← hlen]
      refine (ih h1 (fun _ => hlive1)).imp_left ?_
      rintro ⟨B', regs', hloop, hword', hlen', hsize', h'⟩
      exact ⟨B', regs', hloop, hword', hlen', hsize'.trans hsize, h'⟩
    · refine .inr ⟨?_, ?_⟩
      · show (mergeStep P B (n + k + 1)).bind _ = none
        rw [hstep]
        rfl
      · obtain ⟨m, hm, A, regs', n', hn, hlt, hbuilt⟩ := hover
        exact ⟨m, hm, A, regs', n', by omega, hlt, hbuilt⟩

/-- The builder between two calls. -/
structure Ready (L : LawfulRegister R (Ok P) limit room) (B : OrderedBuilder R)
    (regs : List Nat) (p : Nat → Nat) (W : List (List Nat)) : Prop where
  built : Built P B.au regs B.lastWord B.lastWord.length p W
  holds : ∃ size, size ≤ B.au.totalStates ∧ L.Holds B.au.state? B.reg size regs
  path : ∀ i, i ≤ B.lastWord.length → pathAt B.path i = some (p i)
  fits : ∀ m ∈ room, regs.length ≤ m
  ended : B.lastWord ≠ [] → (B.au.dfa P).final (p B.lastWord.length) = true

/-- **MERGE_PATH** closes the last word down to the common part. -/
theorem mergePath_spec (hlimit : P.maxState ≤ limit) (h : Ready L B regs p W)
    (hn : n ≤ B.lastWord.length) :
    (∃ B' regs', mergePath P B n = some B' ∧ B'.lastWord = B.lastWord ∧
      B'.path.length = B.path.length ∧ B'.au.pool.size ≤ B.au.pool.size ∧
      Merging L B' regs' n p W) ∨
    (mergePath P B n = none ∧ Overflows P room B.lastWord n p W) := by
  obtain ⟨size, hsize, hholds⟩ := h.holds
  obtain ⟨reg', hresize, hholds'⟩ :=
    L.resize hholds hsize (h.built.store.bound.trans hlimit)
  have hadd : n + (B.lastWord.length - n) = B.lastWord.length := Nat.add_sub_cancel' hn
  have hstart : Merging L { B with reg := reg' } regs (n + (B.lastWord.length - n)) p W := by
    rw [hadd]
    exact { h with holds := hholds' }
  have hrun : mergePath P B n =
      mergeLoop P n (B.lastWord.length - n) { B with reg := reg' } := by
    unfold mergePath
    rw [hresize]
    rfl
  rw [hrun]
  refine mergeLoop_spec hstart (fun hpos => .inl ?_)
  rw [hadd]
  refine h.ended ?_
  intro hnil
  rw [hnil, length_nil, Nat.zero_sub] at hpos
  exact absurd hpos (lt_irrefl 0)

/-! ## add_word -/

theorem pathAt_set_self (h : i < path.length) (x : Nat) :
    pathAt (path.set i (some x)) i = some x := by
  unfold pathAt
  rw [getElem?_set_self h]
  rfl

/-- **THE SUFFIX** is added letter by letter. -/
theorem addSuffix_spec {rest : List Nat} (h : Built P B.au regs word n p W)
    (hrest : word.drop n = rest) (hsigma : ∀ c ∈ word, c < P.sigma)
    (hlt : ∀ c, word[n]? = some c → ∀ d t, (B.au.dfa P).next (p n) d = some t → d < c)
    (hroom : B.au.numUsedStates + rest.length < P.maxState)
    (hpool : B.au.pool.size < P.maxPos ∨ ∀ d, (B.au.dfa P).next (p n) d = none)
    (hpath : ∀ i, i ≤ n → pathAt B.path i = some (p i)) (hlen : word.length < B.path.length) :
    ∃ B' p', addSuffix P n rest B = some B' ∧ B'.reg = B.reg ∧
      B.au.totalStates ≤ B'.au.totalStates ∧ (∀ r ∈ regs, B'.au.state? r = B.au.state? r) ∧
      (∀ i, i ≤ word.length → pathAt B'.path i = some (p' i)) ∧
      Built P B'.au regs word word.length p' W := by
  induction rest generalizing B n p with
  | nil =>
    obtain rfl : n = word.length := by
      have := h.spine.le
      have := drop_eq_nil_iff.mp hrest
      omega
    exact ⟨B, p, rfl, rfl, le_rfl, fun _ _ => rfl, hpath, h⟩
  | cons c rest ih =>
    have hc : word[n]? = some c := by
      rw [← head?_drop, hrest]
      rfl
    rw [length_cons] at hroom
    obtain ⟨A1, A2, x, hnew, hadd, htotal, hused, hregs, hend, hbuilt⟩ :=
      h.extend hc (hsigma c (mem_of_getElem? hc)) (hlt c hc) (by omega) hpool
    have hold : ∀ i, i ≤ n → update p (n + 1) x i = p i :=
      fun i hi => update_of_ne (by omega) _ _
    -- the new state has no transitions, so the next letter finds none before it
    obtain ⟨B', p', hrun, hreg, htotal', hregs', hpath', hbuilt'⟩ :=
      @ih { B with au := A2, path := B.path.set (n + 1) (some x) } (n + 1)
        (update p (n + 1) x) hbuilt
        (by rw [← drop_drop, hrest]; rfl)
        (fun d _ e t he => by
          rw [update_self, hend e] at he
          cases he)
        (by
          show A2.numUsedStates + rest.length < P.maxState
          omega)
        (.inr (fun d => by
          rw [update_self]
          exact hend d))
        (fun i hi => by
          by_cases hin : i = n + 1
          · have := h.spine.le
            rw [hin, update_self]
            exact pathAt_set_self (by
              have := (List.getElem_of_getElem? hc).1
              omega) x
          · rw [hold i (by omega)]
            show pathAt (B.path.set (n + 1) (some x)) i = _
            rw [pathAt_set_of_ne (Ne.symm hin)]
            exact hpath i (by omega))
        (by
          show word.length < (B.path.set (n + 1) (some x)).length
          rw [length_set]
          exact hlen)
    refine ⟨B', p', ?_, hreg, htotal.trans htotal', fun r hr => ?_, hpath', hbuilt'⟩
    · rw [addSuffix, hnew, bind_some, hpath n le_rfl, bind_some, hadd]
      exact hrun
    · rw [hregs' r hr]
      exact hregs r hr

/-- **A NEW WORD** behind the last one: the automaton of all words, with the new one open. -/
theorem Built.retarget (h : Built P A regs word n p W) (hd : Diverges word str n)
    (hn : n < str.length) :
    Built P A regs str n p W ∧
      ∀ c, str[n]? = some c → ∀ d t, (A.dfa P).next (p n) d = some t → d < c := by
  have hlt : ∀ c, str[n]? = some c → ∀ d t, (A.dfa P).next (p n) d = some t → d < c := by
    intro c hc d t ht
    obtain ⟨c', hc', hle⟩ := (h.spine.tip d t ht).2
    exact hle.trans_lt (hd.later c c' hc' hc)
  refine ⟨{ h with spine := { h.spine with le := hn.le, edge := ?_, tip := ?_ } }, hlt⟩
  · intro i c hi hc
    rw [hd.same i hi] at hc
    exact h.spine.edge i c hi hc
  · intro d t ht
    have hc : str[n]? = some str[n] := getElem?_eq_getElem hn
    exact ⟨(h.spine.tip d t ht).1, _, hc, le_of_lt (hlt _ hc d t ht)⟩

/-- There is room for one more word: in the automaton and in the register. -/
def Room (P : StateTp) (room : Option Nat) (W : List (List Nat)) (str : List Nat) : Prop :=
  (suffixSets W str).ncard + str.length + 1 < P.maxState ∧
    ∀ m ∈ room, (suffixSets W str).ncard ≤ m

/-- A full register has met too many suffix sets. -/
theorem Overflows.ncard_lt (h : Overflows P room word n p W) (hd : Diverges word str n) :
    ∃ m ∈ room, m < (suffixSets W str).ncard := by
  obtain ⟨m, hm, A, regs, n', hn, hlt, hbuilt⟩ := h
  refine ⟨m, hm, ?_⟩
  calc m < regs.length := hlt
    _ = (suffixSets W (word.take n')).ncard :=
        (hbuilt.spine.ncard_suffixSets hbuilt.words_root (Diverges.take word n')).symm
    _ ≤ (suffixSets W str).ncard :=
        Set.ncard_le_ncard (hbuilt.spine.suffixSets_subset hbuilt.words_root hn hd)
          (suffixSets_le W str).1

/-- **A NEW WORD** behind the last one is added exactly if there is room for it. -/
theorem addFresh_spec (hlimit : P.maxState ≤ limit) (h : Ready L B regs p W)
    (hd : Diverges B.lastWord str n) (hn : n ≤ B.lastWord.length) (hlt : n < str.length)
    (hsigma : ∀ c ∈ str, c < P.sigma) (hlen : str.length < B.path.length)
    (hpool : B.au.pool.size < P.maxPos) :
    (Room P room W str ∧ ∃ B' regs' p', addFresh P B str n = some (B', .added) ∧
      B'.lastWord = str ∧ Ready L B' regs' p' (W ++ [str])) ∨
    (¬ Room P room W str ∧
      (addFresh P B str n = none ∨ ∃ B', addFresh P B str n = some (B', .exceeding))) := by
  rcases mergePath_spec hlimit h hn with
    ⟨B1, regs1, hmerge, hword, hlen1, hsize, h1⟩ | ⟨hmerge, hover⟩
  · have hd1 : Diverges B1.lastWord str n := hword ▸ hd
    have hcount := h1.built.spine.ncard_suffixSets h1.built.words_root hd1
    have hused := h1.built.count
    -- the code looks at the states only after merging the old path
    by_cases hfull : P.maxState ≤ B1.au.numUsedStates + (str.length - n)
    · refine .inr ⟨fun hroom => ?_, .inr ⟨{ B1 with lastWord := [] }, ?_⟩⟩
      · have := hroom.1
        omega
      · unfold addFresh
        rw [hmerge, bind_some, if_pos hfull]
    have hroom : Room P room W str := by
      refine ⟨by omega, fun m hm => ?_⟩
      rw [hcount]
      exact h1.fits m hm
    refine .inl ⟨hroom, ?_⟩
    obtain ⟨hbuilt, hletters⟩ := h1.built.retarget hd1 hlt
    obtain ⟨B2, p2, hsuffix, hreg, htotal, hregs, hpath, hbuilt2⟩ :=
      addSuffix_spec hbuilt rfl hsigma hletters
        (by rw [length_drop]; omega) (.inl (hsize.trans_lt hpool)) h1.path (hlen1 ▸ hlen)
    obtain ⟨A', hterm, htotal', hregs', hend, hbuilt'⟩ := hbuilt2.finish rfl
    refine ⟨{ B2 with au := A', lastWord := str }, regs1, p2, ?_, rfl, ?_⟩
    · unfold addFresh
      rw [hmerge, bind_some, if_neg hfull, hsuffix, bind_some,
        hpath str.length le_rfl, bind_some, hterm]
      rfl
    · refine { built := hbuilt', holds := ⟨B1.au.totalStates, ?_, ?_⟩, path := hpath,
               fits := h1.fits, ended := fun _ => hend }
      · show B1.au.totalStates ≤ A'.totalStates
        omega
      · rw [hreg]
        exact L.congr h1.holds (fun r hr => (hregs' r hr).trans (hregs r hr))
  -- the register was full while merging
  · refine .inr ⟨fun hroom => ?_, .inl ?_⟩
    · obtain ⟨m, hm, hlt'⟩ := hover.ncard_lt hd
      exact absurd (hroom.2 m hm) hlt'.not_ge
    · unfold addFresh
      rw [hmerge]
      rfl

/-- What the comparison says about the two words. -/
theorem compareWord_spec (last str : List Nat) (k : Nat) :
    match compareWord last str k with
    | .existed => last = str
    | .fresh m => last < str ∧ ∃ n, m = k + n ∧ Diverges last str n ∧ n ≤ last.length ∧
        n < str.length
    | _ => str < last := by
  induction last generalizing str k with
  | nil =>
    cases str with
    | nil => rfl
    | cons b str =>
      refine ⟨nil_lt_cons b str, 0, rfl, ⟨fun i hi => absurd hi (not_lt_zero i), ?_⟩,
        le_refl 0, succ_pos _⟩
      intro c c' hc'
      cases hc'
  | cons a last ih =>
    cases str with
    | nil => exact nil_lt_cons a last
    | cons b str =>
      rw [compareWord]
      -- one common letter moves the place of divergence by one
      by_cases hab : b = a
      · subst hab
        rw [if_neg (not_not_intro rfl)]
        have ih := ih str (k + 1)
        generalize compareWord last str (k + 1) = r at ih ⊢
        cases r with
        | existed => exact congrArg (b :: ·) ih
        | unordered1 => exact cons_lt_cons_iff.mpr (.inr ⟨rfl, ih⟩)
        | unordered2 => exact cons_lt_cons_iff.mpr (.inr ⟨rfl, ih⟩)
        | fresh m =>
          obtain ⟨hlt, n, rfl, hd, hn, hn'⟩ := ih
          refine ⟨cons_lt_cons_iff.mpr (.inr ⟨rfl, hlt⟩), n + 1, by omega,
            ⟨fun i hi => ?_, fun c c' hc' hc => ?_⟩, succ_le_succ hn,
            succ_lt_succ hn'⟩
          · cases i with
            | zero => rfl
            | succ i => exact hd.same i (lt_of_succ_lt_succ hi)
          · exact hd.later c c' hc' hc
      rw [if_pos hab]
      by_cases hlt : b < a
      · rw [if_pos hlt]
        exact cons_lt_cons_iff.mpr (.inl hlt)
      · rw [if_neg hlt]
        have hab : a < b := by omega
        refine ⟨cons_lt_cons_iff.mpr (.inl hab), 0, rfl,
          ⟨fun i hi => absurd hi (not_lt_zero i), fun c c' hc' hc => ?_⟩,
          zero_le _, succ_pos _⟩
        rw [← some.inj hc', ← some.inj hc]
        exact hab

/-- The last word is the largest one so far; before the first word it is empty. -/
def Latest (B : OrderedBuilder R) (W : List (List Nat)) : Prop :=
  (W = [] ∧ B.lastWord = []) ∨ (B.lastWord ∈ W ∧ ∀ x ∈ W, x ≤ B.lastWord)

/-- Resizing keeps the entries. -/
theorem pathAt_resizeNoInit {x : Nat} (h : pathAt path i = some x) (hi : i < size) :
    pathAt (resizeNoInit path size) i = some x := by
  have hlt : i < path.length := by
    by_contra hge
    unfold pathAt at h
    rw [getElem?_eq_none (not_lt.mp hge)] at h
    cases h
  unfold pathAt resizeNoInit
  rw [getElem?_append_left, getElem?_take, if_pos hi]
  · exact h
  · rw [length_take]
    omega

theorem resizeNoInit_length (path : List (Option Nat)) (size : Nat) :
    (resizeNoInit path size).length = size := by
  unfold resizeNoInit
  rw [length_append, length_take, length_replicate]
  omega

/-- The path has been resized for the next word. -/
theorem Ready.resized (h : Ready L B regs p W) (hsize : B.lastWord.length < size) :
    Ready L { B with path := resizeNoInit B.path size } regs p W :=
  { built := h.built, holds := h.holds, fits := h.fits, ended := h.ended
    path := fun i hi => pathAt_resizeNoInit (h.path i hi) (hi.trans_lt hsize) }

theorem Built.congr_words {W' : List (List Nat)} (h : Built P A regs word n p W)
    (hW : ∀ w, w ∈ W' ↔ w ∈ W) : Built P A regs word n p W' :=
  { h with words := fun w => (h.words w).trans (decide_eq_decide.mpr (hW w).symm) }

/-- **ADD_WORD** of a word that is not in front of the last one. -/
theorem addWord_spec (hlimit : P.maxState ≤ limit) (h : Ready L B regs p W) (hlast : Latest B W)
    (hsorted : ∀ x ∈ W, x ≤ str) (hfirst : W = [] → str ≠ []) (hsigma : ∀ c ∈ str, c < P.sigma)
    (hpool : B.au.pool.size < P.maxPos) :
    ((str ∈ W ∨ Room P room W str) ∧ ∃ B' regs' p' o, addWord P B str = some (B', o) ∧
      o.returned = some (decide (str ∉ W)) ∧ Latest B' (W ++ [str]) ∧
      Ready L B' regs' p' (W ++ [str])) ∨
    (¬ (str ∈ W ∨ Room P room W str) ∧ (addWord P B str).bind (fun r => r.2.returned) = none) := by
  have hsize : B.lastWord.length < max B.lastWord.length str.length + 1 := by omega
  have h' := h.resized hsize
  have hcmp := compareWord_spec B.lastWord str 0
  -- the last word is the greatest so far
  have hge : B.lastWord ≤ str := by
    rcases hlast with ⟨-, hnil⟩ | ⟨hmem, -⟩
    · rw [hnil]
      exact not_lt.mp (not_lt_nil str)
    · exact hsorted _ hmem
  have hlatest : ∀ B' : OrderedBuilder R, B'.lastWord = str → Latest B' (W ++ [str]) := by
    intro B' hB'
    refine .inr ⟨?_, fun x hx => ?_⟩
    · rw [hB']
      exact mem_append_right _ (mem_singleton_self str)
    · rw [hB']
      rcases mem_append.mp hx with hx | hx
      · exact hsorted x hx
      · rw [mem_singleton.mp hx]
  unfold addWord
  dsimp only
  cases hr : compareWord B.lastWord str 0 with
  | unordered1 =>
    rw [hr] at hcmp
    exact absurd hcmp hge.not_gt
  | unordered2 =>
    rw [hr] at hcmp
    exact absurd hcmp hge.not_gt
  | existed =>
    rw [hr] at hcmp
    -- only at the start the last word is not one of those added
    have hmem : str ∈ W := by
      rcases hlast with ⟨hnil, hempty⟩ | ⟨hmem, -⟩
      · exact absurd (hcmp.symm.trans hempty) (hfirst hnil)
      · exact hcmp ▸ hmem
    refine .inl ⟨.inl hmem, _, regs, p, .existed, rfl, ?_, hlatest _ hcmp,
      { h' with built := h'.built.congr_words (fun w => ?_) }⟩
    · rw [decide_eq_false (not_not_intro hmem)]
      rfl
    · rw [mem_append, mem_singleton]
      exact ⟨fun hor => hor.elim id (fun heq => heq ▸ hmem), .inl⟩
  | fresh m =>
    rw [hr] at hcmp
    obtain ⟨hlt, k, rfl, hd, hk, hk'⟩ := hcmp
    rw [zero_add] at *
    -- a word above the last one is new
    have hnot : str ∉ W := by
      intro hmem
      rcases hlast with ⟨rfl, -⟩ | ⟨-, hall⟩
      · cases hmem
      · exact absurd (hall str hmem) hlt.not_ge
    have hlen : str.length <
      (resizeNoInit B.path (max B.lastWord.length str.length + 1)).length := by
      rw [resizeNoInit_length]
      omega
    rcases addFresh_spec hlimit h' hd hk hk' hsigma hlen hpool with
      ⟨hroom, B', regs', p', hadd, hword, hready⟩ | ⟨hroom, hfail⟩
    · refine .inl ⟨.inr hroom, B', regs', p', .added, hadd, ?_, hlatest B' hword, hready⟩
      rw [decide_eq_true hnot]
      rfl
    refine .inr ⟨fun hor => hor.elim hnot hroom, ?_⟩
    rcases hfail with hnone | ⟨B', hthrow⟩
    · show (addFresh P _ str k).bind _ = none
      rw [hnone]
      rfl
    · show (addFresh P _ str k).bind _ = none
      rw [hthrow]
      rfl

/-! ## Whole runs -/

/-- Before every call the end of the pool is at a place that a state can address. -/
def PoolRoom (P : StateTp) (B : OrderedBuilder R) (words : List (List Nat)) : Prop :=
  ∀ k < words.length, ∀ r ∈ addWords P B (words.take k), r.1.au.pool.size < P.maxPos

/-- **A SEQUENCE** of `add_word` calls in order: every call returns whether its word is new, or
    one of them finds no room and throws. -/
theorem addWords_spec (hlimit : P.maxState ≤ limit) (h : Ready L B regs p W) (hlast : Latest B W)
    (hsorted : (W ++ words).Pairwise (· ≤ ·)) (hfirst : W = [] → words.head? ≠ some [])
    (hsigma : ∀ w ∈ words, ∀ c ∈ w, c < P.sigma) (hpool : PoolRoom P B words) :
    ((∀ (k : Nat) (w : List Nat), words[k]? = some w →
        w ∈ W ++ words.take k ∨ Room P room (W ++ words.take k) w) ∧
      ∃ B' regs' p' results, addWords P B words = some (B', results) ∧
        Ready L B' regs' p' (W ++ words) ∧ results.length = words.length ∧
        ∀ (k : Nat) (w : List Nat), words[k]? = some w →
          results[k]? = some (decide (w ∉ W ++ words.take k))) ∨
    ((∃ (k : Nat) (w : List Nat), words[k]? = some w ∧
        ¬ (w ∈ W ++ words.take k ∨ Room P room (W ++ words.take k) w)) ∧
      addWords P B words = none) := by
  induction words generalizing B regs p W with
  | nil =>
    refine .inl ⟨fun k w hw => ?_, B, regs, p, [], rfl, ?_, rfl, fun k w hw => ?_⟩
    · cases hw
    · rw [append_nil]
      exact h
    · cases hw
  | cons str words ih =>
    have hle : ∀ x ∈ W, x ≤ str :=
      fun x hx => (pairwise_append.mp hsorted).2.2 x hx str mem_cons_self
    rcases addWord_spec hlimit h hlast hle
      (fun hnil heq => hfirst hnil (by rw [heq]; rfl)) (hsigma str mem_cons_self)
      (hpool 0 (succ_pos _) (B, []) rfl) with
      ⟨hroom, B1, regs1, p1, o, hadd, hret, hlast1, h1⟩ | ⟨hroom, hfail⟩
    -- after the first word the rest runs from the next builder
    · have hrun : ∀ words, addWords P B (str :: words) =
          (addWords P B1 words).map (fun s => (s.1, decide (str ∉ W) :: s.2)) := by
        intro words
        rw [addWords, hadd, bind_some, hret]
        rfl
      have hpool1 : PoolRoom P B1 words := by
        intro k hk r hr
        refine hpool (k + 1) (succ_lt_succ hk) (r.1, decide (str ∉ W) :: r.2) ?_
        exact (hrun _).trans (congrArg _ hr)
      have hcons : ∀ k, W ++ (str :: words).take (k + 1) = (W ++ [str]) ++ words.take k := by
        intro k
        rw [append_assoc]
        rfl
      rcases ih h1 hlast1 (by rw [append_assoc]; exact hsorted)
        (fun hnil => absurd hnil (append_ne_nil_of_right_ne_nil _ (cons_ne_nil _ _)))
        (fun w hw => hsigma w (mem_cons_of_mem _ hw)) hpool1 with
        ⟨hall, B', regs', p', results, hwords, hready, hlen, hres⟩ | ⟨⟨k, w, hw, hno⟩, hwords⟩
      · refine .inl ⟨fun k w hw => ?_, B', regs', p', decide (str ∉ W) :: results, ?_, ?_,
          congrArg (· + 1) hlen, fun k w hw => ?_⟩
        · cases k with
          | zero =>
            rw [← some.inj hw, take_zero, append_nil]
            exact hroom
          | succ k =>
            rw [hcons k]
            exact hall k w hw
        · rw [hrun, hwords]
          rfl
        · rw [append_assoc] at hready
          exact hready
        · cases k with
          | zero =>
            rw [← some.inj hw, take_zero, append_nil]
            rfl
          | succ k =>
            rw [hcons k]
            exact hres k w hw
      · refine .inr ⟨⟨k + 1, w, hw, ?_⟩, ?_⟩
        · rw [hcons k]
          exact hno
        · rw [hrun, hwords]
          rfl
    -- the first word fails already
    refine .inr ⟨⟨0, str, rfl, ?_⟩, ?_⟩
    · rw [take_zero, append_nil]
      exact hroom
    · rw [addWords]
      cases hadd : addWord P B str with
      | none => rfl
      | some r =>
        rw [hadd, bind_some] at hfail
        rw [bind_some, hfail]
        rfl

/-- **CLOSED**: different states of the closed automaton accept different words. -/
theorem Built.minimal (h : Built P A regs word 0 p W) {s t : Nat} {u v : List Nat}
    (hs : (A.dfa P).walk 0 u = some s) (ht : (A.dfa P).walk 0 v = some t)
    (heq : (A.dfa P).accepts s = (A.dfa P).accepts t) : s = t := by
  have hlayers : Layered (A.dfa P) (p 0 :: regs) :=
    ⟨fun c t ht => (h.spine.tip c t ht).1, h.spine.layered⟩
  have hnodup : (p 0 :: regs).Nodup :=
    nodup_cons.mpr ⟨h.spine.fresh 0 le_rfl, h.spine.nodup⟩
  obtain ⟨rank, hrank⟩ := hlayers.ranked hnodup
  -- the root is above every registered state
  have hroot : ∀ r ∈ regs, (A.dfa P).accepts (p 0) ≠ (A.dfa P).accepts r := by
    intro r hr hsame
    obtain ⟨w, hw⟩ := h.spine.layered.live h.spine.live r hr
    obtain ⟨x, hx⟩ := h.spine.reach r hr
    have hne : x ≠ [] := by
      rintro rfl
      rw [← some.inj hx] at hr
      exact h.spine.fresh 0 le_rfl hr
    exact accepts_ne_of_walk hlayers.closed hrank mem_cons_self hne hx
      ((congrFun hsame w).trans hw) hsame
  rw [← h.root] at hs ht
  rcases h.spine.walk_cases hs with hs | ⟨i, hi, -, rfl⟩ <;>
    rcases h.spine.walk_cases ht with ht | ⟨j, hj, -, rfl⟩
  · exact h.spine.layered.eq_of_accepts_eq h.spine.nodup h.spine.live h.spine.data hs ht heq
  · rw [le_zero.mp hj] at heq
    exact absurd heq.symm (hroot s hs)
  · rw [le_zero.mp hi] at heq
    exact absurd heq (hroot t ht)
  · rw [le_zero.mp hi, le_zero.mp hj]

/-- The builder accepts exactly the words, says of each whether it is new, and leaves no two
    states that accept the same words. -/
def Builds (R : Register State) (P : StateTp) (words : List (List Nat)) : Prop :=
  ∃ A results, build R P words = some (A, results) ∧
    (∀ w, (A.dfa P).accepts 0 w = true ↔ w ∈ words) ∧
    results.length = words.length ∧
    (∀ (k : Nat) (w : List Nat), words[k]? = some w →
      results[k]? = some (decide (w ∉ words.take k))) ∧
    ∀ s t u v, (A.dfa P).walk 0 u = some s → (A.dfa P).walk 0 v = some t →
      (A.dfa P).accepts s = (A.dfa P).accepts t → s = t

/-- Every word finds room, and so do the states of the closed automaton. -/
def Fits (P : StateTp) (room : Option Nat) (words : List (List Nat)) : Prop :=
  (∀ (k : Nat) (w : List Nat), words[k]? = some w → w ∉ words.take k →
    Room P room (words.take k) w) ∧
  ∀ m ∈ room, (suffixSets words []).ncard ≤ m

/-- A new automaton has no words. -/
theorem init_built (P : StateTp) : Built P (Store.init P) [] [] 0 (fun _ => 0) [] := by
  have hroot : (Store.init P).state? 0 = some State.new := rfl
  have hok := init_ok P
  have hnext : ∀ d, ((Store.init P).dfa P).next 0 d = none := by
    intro d
    rw [hok.dfa_next hroot]
    rfl
  refine { store := hok, exact := ?_, spine := ?_, root := rfl, states := fun _ _ => ⟨_, hroot⟩,
           count := rfl, below := ⟨forall_mem_nil _, forall_mem_nil _⟩, words := fun w => ?_ }
  · intro i s hs
    cases i with
    | zero =>
      rw [← mem_unique hroot hs]
      exact canonical_exact P false []
    | succ i => cases hs
  · exact { nodup := nodup_nil, layered := trivial
            live := forall_mem_nil _
            data := fun s t hs => absurd hs not_mem_nil
            inj := fun i j hi hj _ => (le_zero.mp hi).trans (le_zero.mp hj).symm
            fresh := fun i _ => not_mem_nil, le := le_refl 0
            edge := fun i c hi => absurd hi (not_lt_zero i)
            tip := fun d t ht => absurd ((hnext d).symm.trans ht) (some_ne_none t).symm
            reach := forall_mem_nil _ }
  · cases w with
    | nil => rfl
    | cons c w => exact accepts_cons_none (hnext c) w

/-- A new builder is ready. -/
theorem new_ready (L : LawfulRegister R (Ok P) limit room) (hlimit : P.maxState ≤ limit) :
    ∃ B, OrderedBuilder.new R P = some B ∧ B.lastWord = [] ∧ Ready L B [] (fun _ => 0) [] := by
  have hone : (Store.init P).totalStates = 1 := rfl
  have hmax : 1 ≤ limit := le_trans (init_ok P).bound hlimit
  obtain ⟨reg, hreg, hholds⟩ := L.start one_pos hmax
  have hnew : OrderedBuilder.new R P = some
      { au := Store.init P, reg := reg, path := some 0 :: replicate 63 none,
        lastWord := [] } := by
    unfold OrderedBuilder.new
    rw [hone, hreg]
    rfl
  refine ⟨_, hnew, rfl, ?_⟩
  refine { built := init_built P, holds := ⟨1, le_refl 1, hholds⟩, path := ?_,
           fits := fun m _ => zero_le m, ended := fun hne => absurd rfl hne }
  · intro i hi
    rw [le_zero.mp hi]
    rfl

/-- **THE BUILDER** does its job on sorted words exactly if the first word is not empty and all
    of them find room. -/
theorem builds_iff (L : LawfulRegister R (Ok P) limit room) (hlimit : P.maxState ≤ limit)
    (hsorted : words.Pairwise (· ≤ ·)) (hsigma : ∀ w ∈ words, ∀ c ∈ w, c < P.sigma)
    (hpool : ∀ B ∈ OrderedBuilder.new R P, PoolRoom P B words) :
    Builds R P words ↔ words.head? ≠ some [] ∧ Fits P room words := by
  obtain ⟨B, hnew, hempty, hready⟩ := new_ready L hlimit
  by_cases hfirst : words.head? = some []
  · -- the empty word is taken for the last one
    refine ⟨?_, fun hright => absurd hfirst hright.1⟩
    rintro ⟨A, results, hbuild, -, -, hres, -⟩
    obtain ⟨words, rfl⟩ : ∃ l, words = [] :: l := by
      cases words with
      | nil => cases hfirst
      | cons w l => exact ⟨l, by rw [some.inj hfirst]⟩
    have hzero := hres 0 [] rfl
    unfold build at hbuild
    rw [hnew, bind_some, addWords] at hbuild
    obtain ⟨B0, hadd⟩ : ∃ B0, addWord P B [] = some (B0, .existed) := by
      unfold addWord
      dsimp only
      rw [hempty]
      exact ⟨_, rfl⟩
    rw [hadd] at hbuild
    obtain ⟨r, hr, hclose⟩ := bind_eq_some_iff.mp hbuild
    obtain ⟨r', -, rfl⟩ := map_eq_some_iff.mp hr
    obtain ⟨B', -, heq⟩ := map_eq_some_iff.mp hclose
    rw [← (Prod.mk.inj heq).2] at hzero
    cases hzero
  have hspec := addWords_spec hlimit hready (.inl ⟨rfl, hempty⟩)
    (show ([] ++ words).Pairwise (· ≤ ·) from hsorted) (fun _ => hfirst) hsigma
    (hpool B hnew)
  simp only [nil_append] at hspec
  rcases hspec with ⟨hall, B1, regs1, p1, results, hwords, h1, hlen, hres⟩ |
    ⟨⟨k, w, hw, hno⟩, hwords⟩
  -- closing merges the path down to the root
  · have hd : Diverges B1.lastWord [] 0 :=
      ⟨fun i hi => absurd hi (not_lt_zero i), fun c c' _ hc => by cases hc⟩
    rcases mergePath_spec hlimit h1 (zero_le _) with
      ⟨B2, regs2, hmerge, hword, -, -, h2⟩ | ⟨hmerge, hover⟩
    · have hright : Fits P room words := by
        refine ⟨fun k w hw hnot => (hall k w hw).resolve_left hnot, fun m hm => ?_⟩
        rw [h2.built.spine.ncard_suffixSets h2.built.words_root (hword ▸ hd)]
        exact h2.fits m hm
      refine ⟨fun _ => ⟨hfirst, hright⟩, fun _ => ⟨B2.au, results, ?_, fun w => ?_, hlen, hres,
        fun s t u v hs ht heq => h2.built.minimal hs ht heq⟩⟩
      · unfold build close
        rw [hnew, bind_some, hwords, bind_some, hmerge]
        rfl
      · rw [h2.built.words w]
        exact decide_eq_true_iff
    · refine ⟨?_, fun hright => ?_⟩
      · rintro ⟨A, results', hbuild, -⟩
        unfold build close at hbuild
        rw [hnew, bind_some, hwords, bind_some, hmerge] at hbuild
        cases hbuild
      · obtain ⟨m, hm, hlt⟩ := hover.ncard_lt hd
        exact absurd (hright.2.2 m hm) hlt.not_ge
  -- some word did not fit
  refine ⟨?_, fun hright => ?_⟩
  · rintro ⟨A, results', hbuild, -⟩
    unfold build at hbuild
    rw [hnew, bind_some, hwords] at hbuild
    cases hbuild
  · by_cases hmem : w ∈ words.take k
    · exact absurd (.inl hmem) hno
    · exact absurd (.inr (hright.2.1 k w hw hmem)) hno

/-- Room for every word if there are states for all letters. -/
theorem fits_of_length (hstates : (words.map length).sum + 1 < P.maxState)
    (hroom : ∀ m ∈ room, (words.map length).sum ≤ m) : Fits P room words := by
  refine ⟨fun k w hw _ => ?_, fun m hm => ?_⟩
  · have hle := (suffixSets_le (words.take k) w).2
    have hsplit : (words.map length).sum =
        ((words.take k).map length).sum + (w.length +
          ((words.drop (k + 1)).map length).sum) := by
      obtain ⟨hk, rfl⟩ := List.getElem_of_getElem? hw
      rw [← sum_cons, ← map_cons, ← drop_eq_getElem_cons hk, ← sum_append_nat,
        ← map_append, take_append_drop]
    refine ⟨by omega, fun m hm => ?_⟩
    have := hroom m hm
    omega
  · exact le_trans (suffixSets_le words []).2 (hroom m hm)

/-- **ORDERED_BUILDER**, with either register, any hash function and any load arithmetic: fed
    with words in order it gives the minimal automaton of exactly these words and says of each
    whether it is new, exactly if the first word is not empty and the states fit.  The pool
    must not have reached the places that no state can address. -/
theorem ordered_builder_builds_iff (P : StateTp) (tp : RegisterTp) (hash : State → BitVec 64)
    (grow load : Nat → Nat) (words : List (List Nat)) (hsorted : words.Pairwise (· ≤ ·))
    (hsigma : ∀ w ∈ words, ∀ c ∈ w, c < P.sigma)
    (hpool : ∀ B ∈ OrderedBuilder.new (registerOf P tp hash grow load) P, PoolRoom P B words) :
    Builds (registerOf P tp hash grow load) P words ↔
      words.head? ≠ some [] ∧ Fits P (registerRoom P tp) words := by
  cases tp with
  | parallel =>
    exact builds_iff (parallelOf_lawful P hash grow load) (maxState_le P) hsorted hsigma hpool
  | realMap => exact builds_iff (realMapOf_lawful P hash) le_rfl hsorted hsigma hpool

/-- Four words with one repetition. -/
theorem ordered_builder_builds_three_words :
    Builds (registerOf .state4B .realMap (fun _ => 0) id id) .state4B
      [[97], [97, 98], [97, 98], [98]] :=
  (ordered_builder_builds_iff .state4B .realMap (fun _ => 0) id id _ (by decide) (by decide)
    (by unfold PoolRoom; decide +kernel)).mpr ⟨by decide, fits_of_length (by decide) (by decide)⟩

/-- The empty word equals the last word of a new builder. -/
theorem ordered_builder_loses_empty_word :
    (build (registerOf .state32 .parallel (fun _ => 0) id id) .state32 [[]]).map
      (fun r => (r.2, (r.1.dfa .state32).accepts 0 [])) = some ([false], false) := by
  decide +kernel

end OnflyMinimize
