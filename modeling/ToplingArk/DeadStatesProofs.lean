import ToplingArk.DistributeProofs
import ToplingArk.StackSearchProofs
import ToplingArk.StateRegisterProofs

/-! # remove_dead_states — keeping what leads to a final state

    The transitions are turned around, the states that final states are reached from are
    marked, and the marked states are copied under new numbers, in their order.  An automaton
    whose initial state is dead loses it: of an automaton without words no state is left. -/

namespace DeadStates

open Automata OnflyMinimize List Option Function

/-! ## The code -/

/-- The transitions with their targets in front, state by state. -/
def edges (A : Store) : List (Nat × (Nat × Nat)) :=
  (range A.totalStates).flatMap (fun s =>
    (A.state? s).elim [] (fun x => x.moves.map (fun m => (m.2, (m.1, s)))))

/-- `graph_reverse_nfa`: index and data. -/
def graphReverseNfa (P : StateTp) (A : Store) : Option (List Nat × List (Option (Nat × Nat))) :=
  Distribute.distribute (linkTp P).bits A.totalStates (edges A)

/-- The states of written entries. -/
def written : List (Option (Nat × Nat)) → Option (List Nat)
  | [] => some []
  | e :: l => e.bind (fun m => (written l).map (fun l => m.2 :: l))

/-- The states with a transition to the state. -/
def sources (inv : List Nat × List (Option (Nat × Nat))) (parent : Nat) : Option (List Nat) :=
  inv.1[parent]?.bind (fun beg => inv.1[parent + 1]?.bind (fun fin =>
    if fin ≤ inv.2.length then written ((inv.2.drop beg).take (fin - beg)) else none))

/-- The final states. -/
def finals (A : Store) : List Nat :=
  (range A.totalStates).filter (fun i => (A.state? i).elim false State.term)

/-- The marked states get numbers in ascending order. -/
def newNumbers : List Bool → Nat → List (Option Nat)
  | [], _ => []
  | b :: mark, next =>
      if b then some next :: newNumbers mark (next + 1) else none :: newNumbers mark next

/-- The transitions to states that are kept. -/
def keptMoves (map : List (Option Nat)) : List (Nat × Nat) → Option (List (Nat × Nat))
  | [] => some []
  | m :: l => map[m.2]?.bind (fun child2 =>
    (keptMoves map l).map (fun l => child2.elim l (fun t => (m.1, t) :: l)))

/-- A marked state is copied. -/
def copyAlive (P : StateTp) (src : Store) (map : List (Option Nat)) (au : Store) (parent : Nat) :
    Option Store :=
  map[parent]?.bind (fun parent2 =>
    match parent2 with
    | none => some au
    | some parent2 => (src.state? parent).bind (fun x =>
      (keptMoves map x.moves).bind (fun children =>
        (au.addAllMove P parent2 children).bind (fun au =>
          if x.term then au.setTerm parent2 true else some au))))

/-- `remove_dead_states` -/
def removeDeadStates (P : StateTp) (src : Store) : Option Store :=
  (graphReverseNfa P src).bind (fun inv =>
    (StackSearch.search (sources inv) (src.totalStates + 1) ((finals src).reverse,
      (range src.totalStates).map (fun i => (src.state? i).elim false State.term))).bind
        (fun mark =>
          ((Store.init P).resizeStates P (mark.count true)).bind (fun au =>
            Runs.run (copyAlive P src (newNumbers mark 0)) au (range src.totalStates))))

/-! ## Alive states -/

variable {P : StateTp} {A src au : Store} {t s i next p j : Nat} {l : List (Nat × Nat)}

/-- The automaton may have free states; its transitions lead to states of the automaton. -/
structure Closed (P : StateTp) (A : Store) : Prop where
  ok : StoreOk P A
  targets : ∀ i s, A.state? i = some s → ∀ m ∈ s.moves, m.2 < A.totalStates

/-- Some word is accepted from the state. -/
def Alive (P : StateTp) (A : Store) (i : Nat) : Prop := ∃ w, (A.dfa P).accepts i w = true

/-- The states with a transition to the state, as a list. -/
def preds (A : Store) (t : Nat) : List Nat := (Distribute.ofKey (edges A) t).map Prod.snd

/-- An edge turned around is a transition of a used state. -/
theorem mem_edges {c : Nat} : (t, (c, s)) ∈ edges A ↔
    ∃ x, A.state? s = some x ∧ (c, t) ∈ x.moves := by
  unfold edges
  rw [mem_flatMap]
  constructor
  · rintro ⟨i, -, hmem⟩
    cases hi : A.state? i with
    | none =>
      rw [hi] at hmem
      cases hmem
    | some x =>
      rw [hi] at hmem
      obtain ⟨m, hm, heq⟩ := mem_map.mp hmem
      cases heq
      exact ⟨x, hi, hm⟩
  · rintro ⟨x, hx, hm⟩
    refine ⟨s, mem_range.mpr (state?_lt hx), ?_⟩
    rw [hx]
    exact mem_map.mpr ⟨_, hm, rfl⟩

/-- The predecessors of a state are those with a transition to it. -/
theorem mem_preds : s ∈ preds A t ↔ ∃ x c, A.state? s = some x ∧ (c, t) ∈ x.moves := by
  unfold preds Distribute.ofKey
  rw [List.map_map, List.mem_map]
  constructor
  · rintro ⟨⟨t', c, s'⟩, hmem, rfl⟩
    obtain ⟨hedge, ht⟩ := mem_filter.mp hmem
    obtain rfl : t' = t := of_decide_eq_true ht
    obtain ⟨x, hx, hm⟩ := mem_edges.mp hedge
    exact ⟨x, c, hx, hm⟩
  · rintro ⟨x, c, hx, hm⟩
    refine ⟨(t, c, s), mem_filter.mpr ⟨mem_edges.mpr ⟨x, hx, hm⟩, decide_eq_true rfl⟩, rfl⟩

/-- The search starts from the final states. -/
theorem mem_finals : i ∈ finals A ↔ ∃ x, A.state? i = some x ∧ x.term = true := by
  unfold finals
  rw [mem_filter, mem_range]
  constructor
  · rintro ⟨-, hterm⟩
    cases hi : A.state? i with
    | none =>
      rw [hi] at hterm
      cases hterm
    | some x =>
      rw [hi] at hterm
      exact ⟨x, rfl, hterm⟩
  · rintro ⟨x, hx, hterm⟩
    refine ⟨state?_lt hx, ?_⟩
    rw [hx]
    exact hterm

/-- Nothing is accepted from a free state or from behind the states. -/
theorem accepts_none (hi : A.state? i = none) (w : List Nat) : (A.dfa P).accepts i w = false := by
  cases w with
  | nil =>
    show (A.state? i).elim false State.term = false
    rw [hi]
    rfl
  | cons c w => exact Dfa.accepts_cons_none (dfa_next_none hi c) w

/-- A state that reaches a final one is in use. -/
theorem Alive.used (h : Alive P A i) : ∃ x, A.state? i = some x := by
  obtain ⟨w, hw⟩ := h
  cases hi : A.state? i with
  | none =>
    rw [accepts_none hi] at hw
    cases hw
  | some x => exact ⟨x, rfl⟩

/-- A state with a transition to an alive state is alive. -/
theorem Closed.alive_source (h : Closed P A) {x : State} (hx : A.state? i = some x) {m : Nat × Nat}
    (hm : m ∈ x.moves) (halive : Alive P A m.2) : Alive P A i := by
  obtain ⟨w, hw⟩ := halive
  refine ⟨m.1 :: w, ?_⟩
  rw [Dfa.accepts_cons_some (t := m.2) (by
    rw [h.ok.dfa_next hx]
    exact target_of_mem (h.ok.ok _ x hx).ascending hm), hw]

/-- A state is alive when a path backwards from a final state leads to it. -/
theorem alive_iff_reach (h : Closed P A) :
    Alive P A i ↔ StackSearch.Reach (preds A) (finals A).reverse i := by
  constructor
  · rintro ⟨w, hw⟩
    induction w generalizing i with
    | nil =>
      obtain ⟨x, hi⟩ := Alive.used ⟨[], hw⟩
      rw [Dfa.accepts_nil, dfa_final hi] at hw
      exact .root (mem_reverse.mpr (mem_finals.mpr ⟨x, hi, hw⟩))
    | cons c w ih =>
      obtain ⟨x, hi⟩ := Alive.used ⟨c :: w, hw⟩
      cases ht : target x.moves c with
      | none =>
        rw [Dfa.accepts_cons_none (by rw [h.ok.dfa_next hi, ht])] at hw
        cases hw
      | some t =>
        rw [Dfa.accepts_cons_some (by rw [h.ok.dfa_next hi, ht])] at hw
        exact (ih hw).step (mem_preds.mpr ⟨x, c, hi, mem_of_target ht⟩)
  rintro ⟨r, hr, hri⟩
  induction hri with
  | refl =>
    obtain ⟨x, hx, hterm⟩ := mem_finals.mp (mem_reverse.mp hr)
    exact ⟨[], by rw [Dfa.accepts_nil, dfa_final hx, hterm]⟩
  | @tail t i _ hpred ih =>
    obtain ⟨x, c, hx, hm⟩ := mem_preds.mp hpred
    exact h.alive_source hx hm ih

noncomputable instance (P : StateTp) (A : Store) : DecidablePred (Alive P A) := Classical.decPred _

/-- The length of the block that a state of the automaton needs without its dead targets. -/
noncomputable def aliveLen (P : StateTp) (A : Store) (i : Nat) : Nat :=
  (A.state? i).elim 0 (fun x => P.blockLen (x.moves.filter (fun m => Alive P A m.2)))

/-- A dead state takes no block. -/
theorem Closed.aliveLen_dead (h : Closed P A) (hdead : ¬ Alive P A i) : aliveLen P A i = 0 := by
  unfold aliveLen
  cases hi : A.state? i with
  | none => rfl
  | some x =>
    have hnil : x.moves.filter (fun m => Alive P A m.2) = [] :=
      filter_eq_nil_iff.mpr (fun m hm halive =>
        hdead (h.alive_source hi hm (of_decide_eq_true halive)))
    show P.blockLen (x.moves.filter _) = 0
    rw [hnil]
    rfl

/-! ## The marks -/

theorem written_map_some (l : List (Nat × Nat)) : written (l.map some) = some (l.map Prod.snd) := by
  induction l with
  | nil => rfl
  | cons m l ih =>
    show (written (l.map some)).map _ = _
    rw [ih]
    rfl

/-- Every edge leads to a state of the automaton. -/
theorem Closed.edges_lt (h : Closed P A) : ∀ item ∈ edges A, item.1 < A.totalStates := by
  rintro ⟨t, c, s⟩ hmem
  obtain ⟨x, hx, hm⟩ := mem_edges.mp hmem
  exact h.targets s x hx _ hm

/-- **GRAPH_REVERSE_NFA** has the sources of every state. -/
theorem graphReverseNfa_spec (h : Closed P A) (hfits : (edges A).length < 2 ^ (linkTp P).bits) :
    ∃ inv, graphReverseNfa P A = some inv ∧
      ∀ t, t < A.totalStates → sources inv t = some (preds A t) := by
  obtain ⟨index, data, hdist, hlen, hrange⟩ := Distribute.distribute_spec h.edges_lt hfits
  refine ⟨(index, data), hdist, fun t ht => ?_⟩
  obtain ⟨hbeg, hfin, hslice⟩ := hrange t ht
  have hle := Distribute.below_le (edges A) (t + 1)
  rw [Distribute.below_succ] at hle
  unfold sources
  dsimp only
  rw [hbeg, bind_some, hfin, bind_some, if_pos (by omega), Nat.add_sub_cancel_left,
    hslice, written_map_some]
  rfl

/-- **THE MARKS** are on the states that are alive. -/
theorem marks_spec (h : Closed P A) (hfits : (edges A).length < 2 ^ (linkTp P).bits) :
    ∃ inv mark, graphReverseNfa P A = some inv ∧
      StackSearch.search (sources inv) (A.totalStates + 1) ((finals A).reverse,
        (range A.totalStates).map (fun i => (A.state? i).elim false State.term)) = some mark ∧
      mark.length = A.totalStates ∧ ∀ i, mark[i]? = some true ↔ Alive P A i := by
  obtain ⟨inv, hinv, hsources⟩ := graphReverseNfa_spec h hfits
  have hmark : ∀ i : Nat, ((range A.totalStates).map (fun i =>
      (A.state? i).elim false State.term))[i]? = some true ↔ i ∈ finals A := by
    intro i
    rw [getElem?_map, map_eq_some_iff]
    unfold finals
    rw [mem_filter]
    constructor
    · rintro ⟨j, hj, hterm⟩
      obtain ⟨hlt, heq⟩ := List.getElem_of_getElem? hj
      rw [getElem_range] at heq
      subst heq
      exact ⟨by simpa using hlt, hterm⟩
    · rintro ⟨hlt, hterm⟩
      refine ⟨i, ?_, hterm⟩
      rw [getElem?_eq_getElem (by simpa using hlt), getElem_range]
  obtain ⟨mark, hsearch, hlen, hreach⟩ := StackSearch.search_roots
    (by rw [length_map, length_range]) hsources
    (fun i _ j hj => by
      obtain ⟨x, c, hx, -⟩ := mem_preds.mp hj
      exact state?_lt hx)
    (nodup_reverse.mpr (nodup_range.filter _)) (fun i => (hmark i).trans mem_reverse.symm)
  exact ⟨inv, mark, hinv, hsearch, hlen, fun i => (hreach i).trans (alive_iff_reach h).symm⟩

/-! ## The copy -/

/-- The new number of a marked state: the marked states before it are counted. -/
theorem newNumbers_eq {mark : List Bool} :
    (newNumbers mark next)[i]? = some (some p) ↔
      mark[i]? = some true ∧ p = next + (mark.take i).count true := by
  induction mark generalizing next i with
  | nil => simp [newNumbers]
  | cons b mark ih =>
    cases b with
    | true =>
      show (some next :: newNumbers mark (next + 1))[i]? = _ ↔ _
      cases i with
      | zero => simp [eq_comm]
      | succ i =>
        rw [getElem?_cons_succ, ih, take_succ_cons, count_cons_self]
        refine and_congr_right (fun _ => ?_)
        omega
    | false =>
      show (none :: newNumbers mark next)[i]? = _ ↔ _
      cases i with
      | zero => simp
      | succ i =>
        rw [getElem?_cons_succ, ih, getElem?_cons_succ, take_succ_cons,
          count_cons_of_ne Bool.false_ne_true]

variable (mark : List Bool)

theorem newNumbers_length (next : Nat) : (newNumbers mark next).length = mark.length := by
  induction mark generalizing next with
  | nil => rfl
  | cons b mark ih =>
    cases b with
    | true => exact congrArg Nat.succ (ih _)
    | false => exact congrArg Nat.succ (ih _)

/-- More marks lie before a later state. -/
theorem count_take_lt {mark : List Bool} (hij : i < j) (hi : mark[i]? = some true) :
    (mark.take i).count true < (mark.take j).count true := by
  have hsub : (mark.take (i + 1)).Sublist (mark.take j) := take_sublist_take_left hij
  have hle := hsub.count_le true
  rw [take_add_one, hi] at hle
  simp at hle
  omega

/-- The number of a state of the copy. -/
def number (i : Nat) : Option Nat := (newNumbers mark 0)[i]?.join

/-- The number of a marked state is how many are marked before it. -/
theorem number_eq_some {mark : List Bool} :
    number mark i = some p ↔ mark[i]? = some true ∧ p = (mark.take i).count true := by
  unfold number
  rw [join_eq_some_iff, newNumbers_eq, Nat.zero_add]

/-- Two states never get the same number. -/
theorem number_inj {mark : List Bool} (hi : number mark i = some p) (hj : number mark j = some p) :
    i = j := by
  obtain ⟨hmi, rfl⟩ := number_eq_some.mp hi
  obtain ⟨hmj, heq⟩ := number_eq_some.mp hj
  rcases Nat.lt_trichotomy i j with hlt | rfl | hgt
  · have := count_take_lt hlt hmi
    omega
  · rfl
  · have := count_take_lt hgt hmj
    omega

/-- The numbers are below the number of marks. -/
theorem number_lt {mark : List Bool} (hi : number mark i = some p) : p < mark.count true := by
  obtain ⟨hmi, rfl⟩ := number_eq_some.mp hi
  have hlt := (List.getElem_of_getElem? hmi).1
  have := count_take_lt hlt hmi
  rw [take_length] at this
  exact this

/-- The renumbering is the counting of marks. -/
theorem getElem?_newNumbers (hi : i < mark.length) :
    (newNumbers mark 0)[i]? = some (number mark i) := by
  unfold number
  rw [getElem?_eq_getElem (by rw [newNumbers_length]; exact hi)]
  rfl

/-- The transitions to marked states, with the new numbers. -/
def kept (l : List (Nat × Nat)) : List (Nat × Nat) :=
  l.filterMap (fun m => (number mark m.2).map (fun t => (m.1, t)))

theorem kept_cons (m : Nat × Nat) (l : List (Nat × Nat)) : kept mark (m :: l) =
    (number mark m.2).elim (kept mark l) (fun t => (m.1, t) :: kept mark l) := by
  unfold kept
  rw [filterMap_cons]
  cases number mark m.2 with
  | none => rfl
  | some t => rfl

/-- The transitions that are copied are those to marked states. -/
theorem keptMoves_eq (hl : ∀ m ∈ l, m.2 < mark.length) :
    keptMoves (newNumbers mark 0) l = some (kept mark l) := by
  induction l with
  | nil => rfl
  | cons m l ih =>
    show (newNumbers mark 0)[m.2]?.bind _ = _
    rw [getElem?_newNumbers mark (hl m mem_cons_self), bind_some,
      ih (fun m' hm' => hl m' (mem_cons_of_mem _ hm')), map_some, kept_cons]

/-- Copied transitions keep their letters. -/
theorem kept_letters (l : List (Nat × Nat)) : (kept mark l).map Prod.fst =
    (l.filter (fun m => (number mark m.2).isSome)).map Prod.fst := by
  induction l with
  | nil => rfl
  | cons m l ih =>
    rw [kept_cons, filter_cons]
    cases number mark m.2 with
    | none => exact ih
    | some t => exact congrArg (m.1 :: ·) ih

/-- **THE KEPT TRANSITIONS** lead to the new numbers. -/
theorem target_kept (hl : Ascending l) (c : Nat) :
    target (kept mark l) c = (target l c).bind (number mark) := by
  induction l with
  | nil => rfl
  | cons m l ih =>
    obtain ⟨hfirst, hrest⟩ := pairwise_cons.mp hl
    rw [kept_cons]
    show _ = (if m.1 = c then some m.2 else target l c).bind _
    split
    next hc =>
      rw [bind_some]
      cases hn : number mark m.2 with
      | none =>
        -- the letter does not come again
        show target (kept mark l) c = none
        have hnone : target l c = none := by
          refine target_eq_none (fun m' hm' heq => ?_)
          have := hfirst m' hm'
          omega
        rw [ih hrest, hnone]
        rfl
      | some t => exact if_pos hc
    next hc =>
      rw [← ih hrest]
      cases hn : number mark m.2 with
      | none => rfl
      | some t => exact if_neg hc

/-- The states before `k` are copied, the others are new. -/
structure Copied (P : StateTp) (src : Store) (mark : List Bool) (k : Nat) (au : Store) : Prop where
  ok : StoreOk P au
  total : au.totalStates = mark.count true
  pool : Filled au (bytes (aliveLen P src) k)
  fresh : ∀ i p, k ≤ i → number mark i = some p → au.state? p = some State.new
  done : ∀ i p x, i < k → number mark i = some p → src.state? i = some x →
    au.state? p = some (canonical P x.term (kept mark x.moves))

section Copy

variable {mark : List Bool} {k : Nat} (hsrc : Closed P src) (hlen : mark.length = src.totalStates)
  (halive : ∀ i, mark[i]? = some true ↔ Alive P src i)

include hsrc halive

/-- The copied transitions are ascending and take the alive block. -/
theorem kept_ok {x : State} (hx : src.state? i = some x) :
    Ascending (kept mark x.moves) ∧ (∀ m ∈ kept mark x.moves, m.1 < P.sigma) ∧
      P.blockLen (kept mark x.moves) = aliveLen P src i := by
  have hok := hsrc.ok.ok i x hx
  have hmark : ∀ m : Nat × Nat, (number mark m.2).isSome = decide (Alive P src m.2) := by
    intro m
    refine Bool.eq_iff_iff.mpr ?_
    rw [isSome_iff_exists, decide_eq_true_iff, ← halive]
    exact ⟨fun ⟨p, hp⟩ => (number_eq_some.mp hp).1, fun h => ⟨_, number_eq_some.mpr ⟨h, rfl⟩⟩⟩
  have hletters : (kept mark x.moves).map Prod.fst =
      (x.moves.filter (fun m => Alive P src m.2)).map Prod.fst := by
    rw [kept_letters]
    exact congrArg (fun f => (x.moves.filter f).map Prod.fst) (funext hmark)
  have hasc : Ascending (x.moves.filter (fun m => Alive P src m.2)) := hok.ascending.filter _
  refine ⟨pairwise_map.mp (hletters ▸ pairwise_map.mpr hasc), fun m hm => ?_, ?_⟩
  · obtain ⟨m', hm', heq⟩ := mem_map.mp (hletters ▸ mem_map_of_mem hm)
    rw [← heq]
    exact hok.letters m' (mem_of_mem_filter hm')
  · unfold aliveLen
    rw [hx]
    exact blockLen_congr hasc hletters

include hlen

/-- **ONE STATE** is copied, unless its block begins behind what can be addressed. -/
theorem Copied.step (h : Copied P src mark k au) (hk : k < src.totalStates) :
    ((aliveLen P src k ≠ 0 → bytes (aliveLen P src) k < P.maxPos) ∧
      ∃ au', copyAlive P src (newNumbers mark 0) au k = some au' ∧ Copied P src mark (k + 1) au') ∨
    ¬ (aliveLen P src k ≠ 0 → bytes (aliveLen P src) k < P.maxPos) ∧
      copyAlive P src (newNumbers mark 0) au k = none := by
  have hnum := getElem?_newNumbers mark (show k < mark.length by omega)
  unfold copyAlive
  rw [hnum, bind_some]
  cases hp : number mark k with
  | none =>
    -- a dead state needs no block
    have hzero : aliveLen P src k = 0 := hsrc.aliveLen_dead (fun ha => by
      rw [number_eq_some.mpr ⟨(halive k).mpr ha, rfl⟩] at hp
      cases hp)
    refine .inl ⟨fun hne => absurd hzero hne, au, rfl,
      { h with pool := ?_, fresh := ?_, done := ?_ }⟩
    · rw [bytes_succ, hzero]
      exact h.pool
    · intro i p hi
      exact h.fresh i p (by omega)
    · intro i p y hi hip hy
      rcases Nat.lt_succ_iff_lt_or_eq.mp hi with hlt | rfl
      · exact h.done i p y hlt hip hy
      · rw [hp] at hip
        cases hip
  | some p =>
    have hnew := h.fresh k p le_rfl hp
    obtain ⟨x, hx⟩ := ((halive k).mp (number_eq_some.mp hp).1).used
    obtain ⟨hasc, hlt, hblock⟩ := kept_ok hsrc halive hx
    have hkept := keptMoves_eq mark (l := x.moves) (fun m hm => by
      rw [hlen]
      exact hsrc.targets k x hx m hm)
    dsimp only
    rw [hx, bind_some, hkept, bind_some]
    rcases addAllMove_new h.ok false hnew hasc hlt h.pool with
      ⟨hfit, au1, hadd, hok1, htotal1, hpool1, hst1⟩ | ⟨hfull, hnone⟩
    · obtain ⟨au', hset, hok', htotal, hpool', hst'⟩ := setFinal_spec hok1 x.term
        (show _ = some (canonical P false _) by rw [hst1, update_self])
      rw [hst1, update_idem] at hst'
      have hother : ∀ i q, i ≠ k → number mark i = some q → au'.state? q = au.state? q := by
        intro i q hik hiq
        rw [hst', update_of_ne]
        rintro rfl
        exact hik (number_inj hiq hp)
      refine .inl ⟨hblock ▸ hfit, au', by rw [hadd, bind_some, hset],
        { ok := hok', total := (htotal.trans htotal1).trans h.total, pool := ?_, fresh := ?_,
          done := ?_ }⟩
      · rw [bytes_succ, ← hblock]
        unfold Filled
        rw [hpool']
        exact hpool1
      · intro i q hi hiq
        rw [hother i q (by omega) hiq]
        exact h.fresh i q (by omega) hiq
      intro i q y hi hiq hy
      rcases Nat.lt_succ_iff_lt_or_eq.mp hi with hlt' | rfl
      · rw [hother i q hlt'.ne hiq]
        exact h.done i q y hlt' hiq hy
      · obtain rfl := mem_unique hp hiq
        obtain rfl := mem_unique hx hy
        rw [hst', update_self]
    · refine .inr ⟨hblock ▸ hfull, ?_⟩
      rw [hnone]
      rfl

end Copy

/-- More transitions than a state id can count. -/
theorem removeDeadStates_none (h : Closed P src)
    (hmany : 2 ^ (linkTp P).bits ≤ (edges src).length) : removeDeadStates P src = none := by
  unfold removeDeadStates graphReverseNfa
  rw [Distribute.distribute_none h.edges_lt hmany]
  rfl

/-- Room for the states that are alive, and for their blocks. -/
def AliveRoom (P : StateTp) (src : Store) (count : Nat) : Prop :=
  count < P.maxState ∧ P.Addressable (aliveLen P src) src.totalStates

/-- **THE TRIMMED AUTOMATON**: its states are the alive ones, in their order, with their languages.
    It does not exist if there is no room for them. -/
theorem removeDeadStates_eq (h : Closed P src) (hfits : (edges src).length < 2 ^ (linkTp P).bits) :
    ∃ mark : List Bool, mark.length = src.totalStates ∧
      (∀ i, mark[i]? = some true ↔ Alive P src i) ∧
      ((AliveRoom P src (mark.count true) ∧ ∃ au, removeDeadStates P src = some au ∧
          au.totalStates = mark.count true ∧
          ∀ i p, number mark i = some p → (au.dfa P).accepts p = (src.dfa P).accepts i) ∨
        ¬ AliveRoom P src (mark.count true) ∧ removeDeadStates P src = none) := by
  obtain ⟨inv, mark, hinv, hsearch, hlen, halive⟩ := marks_spec h hfits
  refine ⟨mark, hlen, halive, ?_⟩
  unfold removeDeadStates
  rw [hinv, bind_some, hsearch, bind_some]
  rcases lt_or_ge (mark.count true) P.maxState with hcount | hmany
  rotate_left
  · refine .inr ⟨fun hroom => absurd hroom.1 hmany.not_gt, ?_⟩
    unfold Store.resizeStates
    rw [if_pos hmany]
    rfl
  -- one state after the other is copied to its number
  obtain ⟨au0, hresize, hok0, htotal0, hpool0, hnew0⟩ := resizeStates_init P hcount
  have hstart : Copied P src mark 0 au0 :=
    { ok := hok0, total := htotal0, pool := hpool0
      fresh := fun i p _ hip => hnew0 p (number_lt hip)
      done := fun i p x hi => absurd hi (Nat.not_lt_zero i) }
  rw [hresize, bind_some]
  rcases Runs.run_range_or (n := src.totalStates) (Copied P src mark)
      (fun i => aliveLen P src i ≠ 0 → bytes (aliveLen P src) i < P.maxPos) hstart
      (fun k hk au hc => hc.step h hlen halive hk) with ⟨hroom, au, hau, hc⟩ | ⟨hfull, hnone⟩
  rotate_left
  · exact .inr ⟨fun hroom => hfull hroom.2, hnone⟩
  refine .inl ⟨⟨hcount, hroom⟩, au, hau, hc.total, fun i p hip => ?_⟩
  -- a state without a number accepts nothing
  have hdead : ∀ i, number mark i = none → ∀ w, (src.dfa P).accepts i w = false := by
    intro i hi w
    refine Bool.eq_false_iff.mpr (fun hw => ?_)
    have := number_eq_some.mpr ⟨(halive i).mpr ⟨w, hw⟩, rfl⟩
    rw [hi] at this
    cases this
  have hmoves : ∀ i p, number mark i = some p → ∃ x, src.state? i = some x ∧
      au.state? p = some (canonical P x.term (kept mark x.moves)) := by
    intro i p hip
    obtain ⟨x, hx⟩ := ((halive i).mp (number_eq_some.mp hip).1).used
    exact ⟨x, hx, hc.done i p x (state?_lt hx) hip hx⟩
  refine Dfa.accepts_eq_of_trim hdead ?_ ?_ hip
  · intro i p hip
    obtain ⟨x, hx, hst⟩ := hmoves i p hip
    rw [dfa_final hst, dfa_final hx, canonical_term]
  · intro i p c hip
    obtain ⟨x, hx, hst⟩ := hmoves i p hip
    rw [hc.ok.dfa_next hst, h.ok.dfa_next hx, canonical_moves]
    exact target_kept mark (h.ok.ok i x hx).ascending c

/-- The language is kept if some state is alive only when the initial one is. -/
theorem accepts_zero {mark : List Bool} (htotal : au.totalStates = mark.count true)
    (halive : ∀ i, mark[i]? = some true ↔ Alive P src i)
    (hacc : ∀ i p, number mark i = some p → (au.dfa P).accepts p = (src.dfa P).accepts i)
    (hroot : ∀ i, Alive P src i → Alive P src 0) :
    (au.dfa P).accepts 0 = (src.dfa P).accepts 0 := by
  by_cases hzero : Alive P src 0
  · -- the initial state keeps its number
    exact hacc 0 0 (number_eq_some.mpr ⟨(halive 0).mpr hzero, rfl⟩)
  -- nothing is alive, so nothing is left
  have hnone : au.totalStates = 0 := by
    rw [htotal, count_eq_zero]
    intro hmem
    obtain ⟨i, hi⟩ := mem_iff_getElem?.mp hmem
    exact hzero (hroot i ((halive i).mp hi))
  have hstate : au.state? 0 = none := by
    unfold Store.state?
    rw [getElem?_eq_none hnone.le]
    rfl
  funext w
  rw [accepts_none hstate]
  exact (Bool.eq_false_iff.mpr (fun hw => hzero ⟨w, hw⟩)).symm

/-- The length of the block of a state. -/
def stateLen (P : StateTp) (A : Store) (i : Nat) : Nat :=
  (A.state? i).elim 0 (fun x => P.blockLen x.moves)

/-- The block of the alive transitions is no longer than the old one. -/
theorem Closed.aliveLen_le (h : Closed P A) (i : Nat) : aliveLen P A i ≤ stateLen P A i := by
  unfold aliveLen stateLen
  cases hi : A.state? i with
  | none => exact le_rfl
  | some x => exact blockLen_le (h.ok.ok i x hi).ascending (filter_sublist.map _)

/-- **REMOVE_DEAD_STATES** keeps the language, if some state is alive only when the initial one
    is; it returns if there is room for all states. -/
theorem removeDeadStates_spec (h : Closed P src) (hfits : (edges src).length < 2 ^ (linkTp P).bits)
    (hroot : ∀ i, i < src.totalStates → Alive P src i → Alive P src 0) :
    (∃ au, removeDeadStates P src = some au ∧ (au.dfa P).accepts 0 = (src.dfa P).accepts 0) ∨
      removeDeadStates P src = none ∧ ¬ (src.totalStates < P.maxState ∧
        bytes (stateLen P src) src.totalStates ≤ P.maxPos) := by
  obtain ⟨mark, hlen, halive, ⟨-, au, hau, htotal, hacc⟩ | ⟨hfull, hnone⟩⟩ :=
    removeDeadStates_eq h hfits
  · refine .inl ⟨au, hau, accepts_zero htotal halive hacc (fun i hi => ?_)⟩
    obtain ⟨x, hx⟩ := hi.used
    exact hroot i (state?_lt hx) hi
  · refine .inr ⟨hnone, fun ⟨hbound, hbytes⟩ => hfull ⟨?_, ?_⟩⟩
    · exact lt_of_le_of_lt (count_le_length.trans_eq hlen) hbound
    · exact addressable_of_le (fun i _ => h.aliveLen_le i) hbytes

/-! ## Every automaton -/

/-- Every number below the count of marks is given out. -/
theorem exists_newNumber (h1 : next ≤ p) (h2 : p < next + mark.count true) :
    ∃ i : Nat, (newNumbers mark next)[i]? = some (some p) := by
  induction mark generalizing next with
  | nil => exact absurd h1 (Nat.not_le_of_lt h2)
  | cons b mark ih =>
    cases b with
    | true =>
      rw [count_cons_self] at h2
      by_cases hp : p = next
      · exact ⟨0, by rw [hp]; rfl⟩
      · obtain ⟨i, hi⟩ := ih (show next + 1 ≤ p by omega) (by omega)
        exact ⟨i + 1, hi⟩
    | false =>
      obtain ⟨i, hi⟩ := ih h1 h2
      exact ⟨i + 1, hi⟩

/-- Every state of the trimmed automaton is the number of an alive one. -/
theorem exists_number (hp : p < mark.count true) : ∃ i, number mark i = some p := by
  obtain ⟨i, hi⟩ := exists_newNumber mark (Nat.zero_le p) (by omega)
  exact ⟨i, by rw [number, hi]; rfl⟩

/-- The automaton without its dead states accepts the same, and no state of it is dead. -/
def Trimmed (P : StateTp) (A : Store) : Prop :=
  ∃ au, removeDeadStates P A = some au ∧ (au.dfa P).accepts 0 = (A.dfa P).accepts 0 ∧
    ∀ i, i < au.totalStates → Alive P au i

/-- Fewer alive states than `max_state`, since there are no more states than that. -/
theorem count_lt_iff {mark : List Bool} (h : StoreOk P A) (hlen : mark.length = A.totalStates)
    (halive : ∀ i, mark[i]? = some true ↔ Alive P A i) : mark.count true < P.maxState ↔
      A.totalStates < P.maxState ∨ ∃ i, i < A.totalStates ∧ ¬ Alive P A i := by
  have hcount : mark.count true ≤ mark.length := count_le_length
  have hbound : A.totalStates ≤ P.maxState := h.bound
  constructor
  · intro hlt
    by_contra hall
    push Not at hall
    have hfull : mark.count true = mark.length := by
      refine count_eq_length.mpr (fun b hb => ?_)
      obtain ⟨i, hi⟩ := mem_iff_getElem?.mp hb
      have htrue := (halive i).mpr (hall.2 i (hlen ▸ (List.getElem_of_getElem? hi).1))
      exact mem_unique htrue hi
    omega
  · rintro (hlt | ⟨i, hi, hdead⟩)
    · omega
    · have hne : mark.count true ≠ mark.length := by
        intro hfull
        have hi' := getElem?_eq_getElem (hlen ▸ hi : i < mark.length)
        have htrue := count_eq_length.mp hfull _ (mem_of_getElem? hi')
        exact hdead ((halive i).mp (hi'.trans (congrArg some htrue.symm)))
      omega

/-- **WHEN THE LANGUAGE IS KEPT**: the transitions can be counted, the alive states are fewer than
    `max_state`, their blocks can be addressed, and some state is alive only when the initial one
    is. -/
theorem remove_dead_states_iff (h : Closed P A) : Trimmed P A ↔
    (edges A).length < 2 ^ (linkTp P).bits ∧
    (A.totalStates < P.maxState ∨ ∃ i, i < A.totalStates ∧ ¬ Alive P A i) ∧
    P.Addressable (aliveLen P A) A.totalStates ∧ ((∃ i, Alive P A i) → Alive P A 0) := by
  by_cases hfits : (edges A).length < 2 ^ (linkTp P).bits
  rotate_left
  · refine ⟨?_, fun hh => absurd hh.1 hfits⟩
    rintro ⟨au, hau, -⟩
    rw [removeDeadStates_none h (not_lt.mp hfits)] at hau
    cases hau
  obtain ⟨mark, hlen, halive, hrun⟩ := removeDeadStates_eq h hfits
  rw [← count_lt_iff h.ok hlen halive]
  rcases hrun with ⟨hroom, au, hau, hsize, hacc⟩ | ⟨hfull, hnone⟩
  rotate_left
  · refine ⟨?_, fun hh => absurd ⟨hh.2.1, hh.2.2.1⟩ hfull⟩
    rintro ⟨au, hau, -⟩
    rw [hnone] at hau
    cases hau
  constructor
  · rintro ⟨au', hau', hzero, -⟩
    obtain rfl := mem_unique hau hau'
    refine ⟨hfits, hroom.1, hroom.2, ?_⟩
    -- the first alive state has number 0
    rintro ⟨i, hi⟩
    have hpos : 0 < mark.count true := count_pos_iff.mpr (mem_of_getElem? ((halive i).mpr hi))
    obtain ⟨j, hj⟩ := exists_number mark hpos
    obtain ⟨w, hw⟩ := (halive j).mp (number_eq_some.mp hj).1
    exact ⟨w, by rw [← hzero, hacc j 0 hj, hw]⟩
  · rintro ⟨-, -, -, hroot⟩
    refine ⟨au, hau, accepts_zero hsize halive hacc (fun i hi => hroot ⟨i, hi⟩), fun p hp => ?_⟩
    obtain ⟨i, hi⟩ := exists_number mark (hsize ▸ hp)
    obtain ⟨w, hw⟩ := (halive i).mp (number_eq_some.mp hi).1
    exact ⟨w, by rw [hacc i p hi, hw]⟩

/-- A final state 1, a dead state 2, a state 3 that nothing leads to, and a free state. -/
def fork : Store where
  cells := [.used (canonical .state32 false [(97, 1), (98, 2), (99, 1)]),
    .used (canonical .state32 true []), .used (canonical .state32 false [(97, 2)]),
    .used (canonical .state32 false [(97, 1)]), .free (StateTp.nilState .state32)]
  firstFreeState := 4
  numFreeStates := 1
  pool := ⟨16, [(0, 0)], []⟩

theorem fork_closed : Closed .state32 fork where
  ok := by
    refine { ok := fun i s hs => ?_, bound := by decide,
             free := ⟨[4], ?_, by decide, rfl, fun i => ?_⟩ }
    · rcases i with _ | _ | _ | _ | _ | i <;> cases hs <;>
        exact canonical_ok (by decide) (by decide) _
    · exact ⟨rfl, by decide, _, rfl, rfl⟩
    · rcases i with _ | _ | _ | _ | _ | i <;> simp [fork]
  targets := by
    intro i s hs m hm
    rcases i with _ | _ | _ | _ | _ | i <;> cases hs <;> revert m <;> decide

/-- The dead state and the transition to it are removed. -/
theorem remove_dead_states_fork :
    Trimmed .state32 fork ∧
      ∃ au, removeDeadStates .state32 fork = some au ∧ au.totalStates = 3 := by
  refine ⟨(remove_dead_states_iff fork_closed).mpr ⟨by decide, .inl (by decide), ?_, fun _ => ?_⟩,
    _, rfl, rfl⟩
  · exact addressable_of_le (fun i _ => fork_closed.aliveLen_le i) (by decide)
  · exact ⟨[97], by decide⟩

/-- A second state is final and cannot be reached: it becomes the initial state. -/
theorem remove_dead_states_stray :
    ∃ A au, ((Store.init .state32).newState .state32).bind (fun r => r.1.setTerm r.2 true) =
      some A ∧ removeDeadStates .state32 A = some au ∧
      (A.dfa .state32).accepts 0 [] = false ∧ (au.dfa .state32).accepts 0 [] = true :=
  ⟨_, _, rfl, rfl, rfl, rfl⟩

end DeadStates
