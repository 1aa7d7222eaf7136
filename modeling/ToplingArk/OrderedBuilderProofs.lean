import ToplingArk.AutomataProofs
import ToplingArk.RegisterProofs
import ToplingArk.SpineProofs

/-! # Ordered_Builder — a minimal automaton from sorted words

    The builder keeps the states that the last word leads through out of the register.  When
    the next word leaves the last one after `nPrefix` letters, the states behind these are
    registered from the end on, each being replaced by a registered state of the same stored
    form if there is one.  `none` is a failed check or a read of something that is not there;
    what `add_word` throws is an outcome. -/

namespace OnflyMinimize

open Automata Dfa List Option Function Nat

variable {R : Register State} {i c : Nat} {f : Nat → Option State}

/-- The builder.  An entry of the path that has not been written is `none`. -/
structure OrderedBuilder (R : Register State) where
  au : Store
  reg : R.Reg
  path : List (Option Nat)
  lastWord : List Nat

/-- `resize_no_init`: new entries are not set. -/
def resizeNoInit (path : List (Option Nat)) (n : Nat) : List (Option Nat) :=
  path.take n ++ replicate (n - path.length) none

/-- An entry of the path, if it is set. -/
def pathAt (path : List (Option Nat)) (i : Nat) : Option Nat := path[i]?.join

/-- What the comparison with the last word finds. -/
inductive Comparison
  | unordered1
  | unordered2
  | existed
  | fresh (nPrefix : Nat)
  deriving DecidableEq, Repr

/-- The comparison loop, with the letters compared so far. -/
def compareWord : List Nat → List Nat → Nat → Comparison
  | [], [], _ => .existed
  | [], _ :: _, nPrefix => .fresh nPrefix
  | _ :: _, [], _ => .unordered2
  | a :: last, b :: str, nPrefix =>
    if b ≠ a then
      if b < a then .unordered1 else .fresh nPrefix
    else compareWord last str (nPrefix + 1)

/-- What `add_word` returns or throws. -/
inductive Outcome
  | added
  | existed
  | unordered1
  | unordered2
  | exceeding
  deriving DecidableEq, Repr

/-- The value that is returned, if one is. -/
def Outcome.returned : Outcome → Option Bool
  | .added => some true
  | .existed => some false
  | _ => none

/-- `reset_root_state` on the empty automaton; `erase_all` of an empty register does nothing. -/
def OrderedBuilder.new (R : Register State) (P : StateTp) : Option (OrderedBuilder R) :=
  (R.resizeParallelHashtab (Store.init P).state? R.empty (Store.init P).totalStates).map
    (fun reg => { au := Store.init P, reg := reg, path := some 0 :: replicate 63 none,
                  lastWord := [] })

variable (P : StateTp) (B : OrderedBuilder R)

/-- One round of the loop of `merge_path`, and whether the loop goes on. -/
def mergeStep (j : Nat) : Option (OrderedBuilder R × Bool) :=
  (pathAt B.path j).bind (fun s =>
    (R.findOrAdd B.au.state? B.reg s).bind (fun ib =>
      if ib.2.2 then some ({ B with reg := ib.1 }, true)
      else if ib.2.1 = s then some ({ B with reg := ib.1 }, false)
      else
        (pathAt B.path (j - 1)).bind (fun parent =>
          (R.erase B.au.state? ib.1 parent).bind (fun reg =>
            B.lastWord[j - 1]?.bind (fun ch =>
              (B.au.setMove P parent ib.2.1 ch).bind (fun a =>
                (a.1.delState P s).map (fun au =>
                  ({ B with au := au, reg := reg, path := B.path.set j (some ib.2.1) }, true))))))))

/-- The loop for `j` from `nPrefix + k` down to `nPrefix + 1`. -/
def mergeLoop (P : StateTp) (nPrefix : Nat) : Nat → OrderedBuilder R → Option (OrderedBuilder R)
  | 0, B => some B
  | k + 1, B => (mergeStep P B (nPrefix + k + 1)).bind (fun r =>
    if r.2 then mergeLoop P nPrefix k r.1 else some r.1)

/-- The table is resized, then the path behind the prefix registered. -/
def mergePath (nPrefix : Nat) : Option (OrderedBuilder R) :=
  (R.resizeParallelHashtab B.au.state? B.reg B.au.totalStates).bind (fun reg =>
    mergeLoop P nPrefix (B.lastWord.length - nPrefix) { B with reg := reg })

/-- The loop that adds the suffix, from `path[i]` on. -/
def addSuffix (P : StateTp) : Nat → List Nat → OrderedBuilder R → Option (OrderedBuilder R)
  | _, [], B => some B
  | i, ch :: str, B =>
    (B.au.newState P).bind (fun r => (pathAt B.path i).bind (fun s =>
      (r.1.addMoveChecked P s r.2 ch).bind (fun au =>
        addSuffix P (i + 1) str { B with au := au, path := B.path.set (i + 1) (some r.2) })))

/-- `add_word16` for a word that comes behind the last one. -/
def addFresh (str : List Nat) (nPrefix : Nat) : Option (OrderedBuilder R × Outcome) :=
  (mergePath P B nPrefix).bind (fun B =>
    if P.maxState ≤ B.au.numUsedStates + (str.length - nPrefix) then
      some ({ B with lastWord := [] }, .exceeding)
    else
      (addSuffix P nPrefix (str.drop nPrefix) B).bind (fun B =>
        (pathAt B.path str.length).bind (fun s =>
          (B.au.setTerm s true).map (fun au =>
            ({ B with au := au, lastWord := str }, .added)))))

/-- `add_word16`. -/
def addWord (str : List Nat) : Option (OrderedBuilder R × Outcome) :=
  let B := { B with path := resizeNoInit B.path (max B.lastWord.length str.length + 1) }
  match compareWord B.lastWord str 0 with
  | .unordered1 => some (B, .unordered1)
  | .unordered2 => some (B, .unordered2)
  | .existed => some (B, .existed)
  | .fresh nPrefix => addFresh P B str nPrefix

/-- `close` -/
def close : Option (OrderedBuilder R) :=
  (mergePath P B 0).map (fun B => { B with lastWord := [] })

/-- A sequence of `add_word` calls and what they return; `none` also if one of them throws. -/
def addWords (P : StateTp) : OrderedBuilder R → List (List Nat) →
    Option (OrderedBuilder R × List Bool)
  | B, [] => some (B, [])
  | B, w :: words => (addWord P B w).bind (fun r => r.2.returned.bind (fun b =>
    (addWords P r.1 words).map (fun s => (s.1, b :: s.2))))

/-- A new builder is fed with the words and closed. -/
def build (R : Register State) (P : StateTp) (words : List (List Nat)) :
    Option (Store × List Bool) :=
  (OrderedBuilder.new R P).bind (fun B => (addWords P B words).bind (fun r =>
    (close P r.1).map (fun B => (B.au, r.2))))

/-! ## The automaton with its last word open -/

/-- The states after the words `W`, with the first `n` letters of the last one open. -/
structure Built (P : StateTp) (A : Store) (regs word : List Nat) (n : Nat) (p : Nat → Nat)
    (W : List (List Nat)) : Prop where
  store : StoreOk P A
  exact : ∀ i s, A.state? i = some s → Exact P s
  spine : Spine (A.dfa P) regs word n p
  root : p 0 = 0
  states : ∀ i, i ≤ n → ∃ s, A.state? (p i) = some s
  count : A.numUsedStates = regs.length + (n + 1)
  below : A.pool.Below P
  words : ∀ w, (A.dfa P).accepts 0 w = decide (w ∈ W)

variable {P} {A : Store} {regs word : List Nat} {n : Nat} {p : Nat → Nat}
  {W : List (List Nat)}

/-- From the root exactly the words are accepted. -/
theorem Built.words_root (h : Built P A regs word n p W) (w : List Nat) :
    (A.dfa P).accepts (p 0) w = decide (w ∈ W) := by
  rw [h.root]
  exact h.words w

/-- Registered states are in use. -/
theorem Built.registered (h : Built P A regs word n p W) {r : Nat} (hr : r ∈ regs) :
    ∃ s, A.state? r = some s := by
  cases hs : A.state? r with
  | some s => exact ⟨s, rfl⟩
  | none =>
    rcases h.spine.live r hr with hfinal | ⟨c, t, ht⟩
    · have : (A.dfa P).final r = false := by
        show (A.state? r).elim false State.term = false
        rw [hs]
        rfl
      rw [this] at hfinal
      cases hfinal
    · rw [dfa_next_none hs] at ht
      cases ht

/-- States that behave the same are stored the same. -/
theorem Built.state_eq (h : Built P A regs word n p W) {j : Nat} {x y : State}
    (hi : A.state? i = some x) (hj : A.state? j = some y)
    (hfinal : (A.dfa P).final i = (A.dfa P).final j) (hnext : (A.dfa P).next i = (A.dfa P).next j) :
    x = y := by
  rw [dfa_final hi, dfa_final hj] at hfinal
  rw [h.store.dfa_next hi, h.store.dfa_next hj] at hnext
  exact eq_of_behaviour (h.store.ok i x hi) (h.store.ok j y hj) (h.exact i x hi) (h.exact j y hj)
    hfinal hnext

/-- The last open state is registered. -/
theorem Built.register (h : Built P A regs word (n + 1) p W)
    (hlive : (A.dfa P).final (p (n + 1)) = true ∨ ∃ c t, (A.dfa P).next (p (n + 1)) c = some t)
    (hnew : ∀ y ∈ regs, A.state? y ≠ A.state? (p (n + 1))) :
    Built P A (p (n + 1) :: regs) word n p W where
  store := h.store
  exact := h.exact
  spine := h.spine.register hlive (fun y hy hfinal hnext => by
    obtain ⟨x, hx⟩ := h.states (n + 1) le_rfl
    obtain ⟨s, hs⟩ := h.registered hy
    refine hnew y hy ?_
    rw [hx, hs, h.state_eq hx hs hfinal hnext])
  root := h.root
  states := fun i hi => h.states i (le_succ_of_le hi)
  count := by
    rw [h.count, length_cons]
    omega
  below := h.below
  words := h.words

theorem exact_update (h : ∀ i s, f i = some s → Exact P s) {o : Option State}
    (ho : ∀ s, o = some s → Exact P s) : ∀ j s, update f i o j = some s → Exact P s := by
  intro j s hj
  by_cases hji : j = i
  · rw [hji, update_self] at hj
    exact ho s hj
  · rw [update_of_ne hji] at hj
    exact h j s hj

theorem exact_put (h : ∀ i s, f i = some s → Exact P s) {s0 : State} (h0 : Exact P s0) :
    ∀ j s, update f i (some s0) j = some s → Exact P s :=
  exact_update h (fun _ hs => some.inj hs ▸ h0)

theorem target_replaceMove_eq_update {l : List (Nat × Nat)} {ch old : Nat}
    (h : target l ch = some old) (t : Nat) :
    target (replaceMove l ch t) = update (target l) ch (some t) := by
  funext c
  rw [target_replaceMove]
  split
  next hc =>
    rw [hc, update_self, h, map_some]
  next hc =>
    rw [update_of_ne hc]

/-- The last open state is replaced by a registered one. -/
theorem Built.merge (h : Built P A regs word (n + 1) p W) {y : Nat} (hc : word[n]? = some c)
    (hy : y ∈ regs) (heq : A.state? y = A.state? (p (n + 1))) :
    ∃ A1 A2 old, A.setMove P (p n) y c = some (A1, old) ∧
      A1.delState P (p (n + 1)) = some A2 ∧ A2.totalStates = A.totalStates ∧
      A2.pool.size ≤ A.pool.size ∧ (∀ r ∈ regs, A2.state? r = A.state? r) ∧
      (A2.dfa P).next (p n) c = some y ∧ Built P A2 regs word n p W := by
  obtain ⟨s, hs⟩ := h.states n (le_succ n)
  obtain ⟨x, hx⟩ := h.states (n + 1) le_rfl
  obtain ⟨hedge, -⟩ := h.spine.edge n c (lt_succ_self n) hc
  have hne : p (n + 1) ≠ p n := (h.spine.open_ne (lt_succ_self n) le_rfl).symm
  rw [h.store.dfa_next hs] at hedge
  obtain ⟨A1, hset, hok1, hstate1, hused1, htotal1, hpool1⟩ := setMove_spec h.store hs hedge y
  have hx1 : A1.state? (p (n + 1)) = some x := by
    rw [hstate1, update_of_ne hne, hx]
  obtain ⟨A2, hdel, hok2, hstate2, hused2, htotal2, hpool2⟩ := delState_spec hok1 hx1
  obtain ⟨hbelow, hsize⟩ := h.below.release (p (n + 1)) (x.blockLen P)
  rw [← hpool1, ← hpool2] at hbelow hsize
  -- only the parent and the deleted state have changed
  have hother : ∀ i, i ≠ p n → i ≠ p (n + 1) → A2.state? i = A.state? i := by
    intro i hin hin1
    rw [hstate2, update_of_ne hin1, hstate1, update_of_ne hin]
  have hparent : A2.state? (p n) = some (s.setMoves (replaceMove s.moves c y)) := by
    rw [hstate2, update_of_ne hne.symm, hstate1, update_self]
  have hregs : ∀ r ∈ regs, A2.state? r = A.state? r := fun r hr =>
    hother r (h.spine.ne_of_mem hr (le_succ n)) (h.spine.ne_of_mem hr le_rfl)
  -- the parent's letter leads to the registered state instead
  have hnext : (A2.dfa P).next (p n) = update ((A.dfa P).next (p n)) c (some y) := by
    rw [hok2.dfa_next hparent, h.store.dfa_next hs]
    exact target_replaceMove_eq_update hedge y
  obtain ⟨hspine, hacc⟩ := h.spine.merge (A2.dfa P) hc hy (dfa_final_congr heq.symm)
    (dfa_next_congr heq.symm)
    (fun i hi => by
      by_cases hin : i = p n
      · subst hin
        rw [dfa_final hparent, dfa_final hs]
        rfl
      · exact dfa_final_congr (hother i hin hi))
    (fun i hin hin1 => dfa_next_congr (hother i hin hin1)) hnext
  refine ⟨A1, A2, _, hset, hdel, htotal2.trans htotal1, hpool1 ▸ hsize, hregs, ?_, ?_⟩
  · rw [hnext, update_self]
  refine { store := hok2, exact := ?_, spine := hspine, root := h.root, states := ?_,
           count := ?_, below := hbelow, words := fun w => ?_ }
  · rw [hstate2, hstate1]
    exact exact_update (exact_put h.exact ((h.exact _ s hs).setMoves_replaceMove c y))
      (fun s hs => by cases hs)
  · intro i hi
    by_cases hin : p i = p n
    · rw [hin]
      exact ⟨_, hparent⟩
    · rw [hother _ hin (h.spine.open_ne (lt_succ_of_le hi) le_rfl)]
      exact h.states i (le_succ_of_le hi)
  · have := h.count
    omega
  · rw [← h.root, hacc, h.words_root w]

theorem target_concat_eq_update {l : List (Nat × Nat)} {ch : Nat} (h : ∀ m ∈ l, m.1 < ch)
    (t : Nat) : target (l ++ [(ch, t)]) = update (target l) ch (some t) := by
  funext d
  rw [target_append]
  by_cases hd : d = ch
  · have hnone : target l ch = none := target_eq_none (fun m hm => Nat.ne_of_lt (h m hm))
    rw [hd, hnone, update_self, target, if_pos rfl]
    rfl
  · rw [update_of_ne hd, target, if_neg (Ne.symm hd), target, or_none]

/-- A letter behind all others leaves the state in canonical form.  The first one needs no
    block. -/
theorem addMoveChecked_last {i t ch : Nat} {s : State} (h : StoreOk P A) (hs : A.state? i = some s)
    (hexact : Exact P s) (hsigma : ch < P.sigma) (hlt : ∀ m ∈ s.moves, m.1 < ch)
    (hbelow : A.pool.Below P) (hroom : A.pool.size < P.maxPos ∨ s.moves = []) :
    ∃ A', A.addMoveChecked P i t ch = some A' ∧ StoreOk P A' ∧
      A'.state? = update A.state? i (some (canonical P s.term (s.moves ++ [(ch, t)]))) ∧
      A'.numUsedStates = A.numUsedStates ∧ A'.totalStates = A.totalStates ∧ A'.pool.Below P := by
  have hok := h.ok _ s hs
  have hlast := addMove_last hok.ascending hok.letters hlt s.term t false
  rw [← hexact] at hlast
  have hascending : Ascending (s.moves ++ [(ch, t)]) := by
    refine pairwise_append.mpr ⟨hok.ascending, pairwise_singleton _ _, ?_⟩
    intro m hm m' hm'
    rw [mem_singleton.mp hm']
    exact hlt m hm
  have hsig : ∀ m ∈ s.moves ++ [(ch, t)], m.1 < P.sigma := by
    intro m hm
    rcases mem_append.mp hm with hm | hm
    · exact hok.letters m hm
    · rw [mem_singleton.mp hm]
      exact hsigma
  have hblock : A.pool.size < P.maxPos ∨
      s.blockLen P = (canonical P s.term (s.moves ++ [(ch, t)])).blockLen P := by
    refine hroom.imp_right (fun hnil => ?_)
    rw [hexact, canonical_moves, hnil]
    rfl
  obtain ⟨pool, hrewrite, hbelow⟩ := hbelow.rewrite i hblock
  obtain ⟨A', hrun, hok', hstate, hused, htotal, hpool⟩ :=
    rewrite_spec h hs (canonical_ok hascending hsig s.term) hrewrite
  refine ⟨A', ?_, hok', hstate, hused, htotal, hpool ▸ hbelow⟩
  unfold Store.addMoveChecked Store.addMoveImp
  rw [hs, bind_some, hlast, hrun]
  rfl

/-- The last open state gets a letter behind its others.  Its first transition needs no block. -/
theorem Built.extend (h : Built P A regs word n p W) (hc : word[n]? = some c) (hsigma : c < P.sigma)
    (hlt : ∀ d t, (A.dfa P).next (p n) d = some t → d < c) (hroom : A.numUsedStates < P.maxState)
    (hpool : A.pool.size < P.maxPos ∨ ∀ d, (A.dfa P).next (p n) d = none) :
    ∃ A1 A2 x, A.newState P = some (A1, x) ∧ A1.addMoveChecked P (p n) x c = some A2 ∧
      A.totalStates ≤ A2.totalStates ∧ A2.numUsedStates = A.numUsedStates + 1 ∧
      (∀ r ∈ regs, A2.state? r = A.state? r) ∧ (∀ d, (A2.dfa P).next x d = none) ∧
      Built P A2 regs word (n + 1) (update p (n + 1) x) W := by
  obtain ⟨s, hs⟩ := h.states n le_rfl
  obtain ⟨A1, x, hnew, hok1, hfree, hstate1, hused1, htotal1, -⟩ := newState_spec h.store hroom
  -- the new state is on the spine and in the register nowhere
  have hxs : ∀ i, i ≤ n → p i ≠ x := by
    intro i hi heq
    obtain ⟨s', hs'⟩ := h.states i hi
    rw [heq, hfree] at hs'
    cases hs'
  have hxr : x ∉ regs := by
    intro hr
    obtain ⟨s', hs'⟩ := h.registered hr
    rw [hfree] at hs'
    cases hs'
  have hs1 : A1.state? (p n) = some s := by
    rw [hstate1, update_of_ne (hxs n le_rfl), hs]
  have hok := h.store.ok _ s hs
  have hletters : ∀ m ∈ s.moves, m.1 < c := by
    intro m hm
    refine hlt m.1 m.2 ?_
    rw [h.store.dfa_next hs]
    exact target_of_mem hok.ascending hm
  have hroom1 : A1.pool.size < P.maxPos ∨ s.moves = [] := by
    rw [newState_pool hnew]
    refine hpool.imp_right (fun hnone => eq_nil_iff_forall_not_mem.mpr (fun m hm => ?_))
    have := target_of_mem hok.ascending hm
    rw [← h.store.dfa_next hs, hnone] at this
    cases this
  obtain ⟨A2, hadd, hok2, hstate2, hused2, htotal2, hbelow⟩ :=
    addMoveChecked_last (t := x) hok1 hs1 (h.exact _ s hs) hsigma hletters
      ((newState_pool hnew).symm ▸ h.below) hroom1
  -- only the end of the spine and the new state have changed
  have hother : ∀ i, i ≠ p n → i ≠ x → A2.state? i = A.state? i := by
    intro i hin hix
    rw [hstate2, update_of_ne hin, hstate1, update_of_ne hix]
  have hparent : A2.state? (p n) = some (canonical P s.term (s.moves ++ [(c, x)])) := by
    rw [hstate2, update_self]
  have hxnew : A2.state? x = some State.new := by
    rw [hstate2, update_of_ne (hxs n le_rfl).symm, hstate1, update_self]
  have hregs : ∀ r ∈ regs, A2.state? r = A.state? r := fun r hr =>
    hother r (h.spine.ne_of_mem hr le_rfl) (fun heq => hxr (heq ▸ hr))
  have hend : ∀ d, (A2.dfa P).next x d = none := by
    intro d
    rw [hok2.dfa_next hxnew]
    rfl
  obtain ⟨hspine, hacc⟩ := h.spine.extend (A2.dfa P) (x := x) hc hlt
    (fun hin => hin.elim hxr (fun ⟨i, hi, heq⟩ => hxs i hi heq.symm))
    (fun i hi => by
      by_cases hin : i = p n
      · subst hin
        rw [dfa_final hparent, dfa_final hs, canonical_term]
      · exact dfa_final_congr (hother i hin hi))
    (dfa_final hxnew) hend (fun i hin hix => dfa_next_congr (hother i hin hix))
    (by
      rw [hok2.dfa_next hparent, h.store.dfa_next hs, canonical_moves]
      exact target_concat_eq_update hletters x)
  have hold : ∀ i, i ≤ n → update p (n + 1) x i = p i :=
    fun i hi => update_of_ne (by omega) _ _
  refine ⟨A1, A2, x, hnew, hadd, by omega, by omega, hregs, hend, ?_⟩
  · refine { store := hok2, exact := ?_, spine := hspine, root := ?_, states := ?_, count := ?_,
             below := hbelow, words := fun w => ?_ }
    · rw [hstate2, hstate1]
      exact exact_put (exact_put h.exact (canonical_exact P false [])) (canonical_exact P _ _)
    · exact h.root
    · intro i hi
      rcases lt_or_eq_of_le hi with hi | rfl
      · have hi := le_of_lt_succ hi
        rw [hold i hi]
        by_cases hin : p i = p n
        · rw [hin]
          exact ⟨_, hparent⟩
        · rw [hother _ hin (hxs i hi)]
          exact h.states i hi
      · rw [update_self]
        exact ⟨_, hxnew⟩
    · have := h.count
      omega
    · rw [← h.root, hacc, h.words_root w]

/-- The last state of the word becomes final. -/
theorem Built.finish (h : Built P A regs word n p W) (hn : n = word.length) :
    ∃ A', A.setTerm (p n) true = some A' ∧ A'.totalStates = A.totalStates ∧
      (∀ r ∈ regs, A'.state? r = A.state? r) ∧ (A'.dfa P).final (p n) = true ∧
      Built P A' regs word n p (W ++ [word]) := by
  obtain ⟨s, hs⟩ := h.states n le_rfl
  obtain ⟨A', hterm, hok, hstate, hused, htotal, hpool⟩ := setTerm_spec h.store hs true
  have hother : ∀ i, i ≠ p n → A'.state? i = A.state? i := by
    intro i hin
    rw [hstate, update_of_ne hin]
  have hend : A'.state? (p n) = some { s with term := true } := by
    rw [hstate, update_self]
  have hregs : ∀ r ∈ regs, A'.state? r = A.state? r :=
    fun r hr => hother r (h.spine.ne_of_mem hr le_rfl)
  obtain ⟨hspine, hacc⟩ := h.spine.finish (A'.dfa P) hn
    (fun i hi => dfa_final_congr (hother i hi)) (dfa_final hend)
    (fun i => by
      by_cases hin : i = p n
      · rw [hin, hok.dfa_next hend, h.store.dfa_next hs]
      · exact dfa_next_congr (hother i hin))
  refine ⟨A', hterm, htotal, hregs, dfa_final hend, ?_⟩
  refine { store := hok, exact := ?_, spine := hspine, root := h.root, states := ?_,
           count := hused.trans h.count, below := hpool ▸ h.below, words := fun w => ?_ }
  · rw [hstate]
    exact exact_put h.exact ((h.exact _ s hs).setTerm true)
  · intro i hi
    by_cases hin : p i = p n
    · rw [hin]
      exact ⟨_, hend⟩
    · rw [hother _ hin]
      exact h.states i hi
  · rw [← h.root, hacc w, h.words_root w, ← Bool.decide_or]
    refine decide_eq_decide.mpr ?_
    rw [mem_append, mem_singleton]

end OnflyMinimize
