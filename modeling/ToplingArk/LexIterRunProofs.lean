import ToplingArk.LexIterProofs
import ToplingArk.ZpathPathProofs

/-! # MyLexIteratorT — where the iterator sits

    The stack is the path from the root to a state, by the child that is taken at every state.
    The words before the state and the words behind it are read off the path; every loop of
    `incr` and `decr` goes to another path and leaves the words still to come as they are. -/

namespace LexIter

open Automata Zpath List Option

variable {D : ZDfa} {m : Nat × Nat} {root fuel : Nat} {rank : Nat → Nat} {it : Iter}
  {l : List (List Nat)}

/-! ## Paths -/

/-- The children of the states on a path. -/
def pathNode (D : ZDfa) : List Anc → List (Nat × Nat)
  | [] => []
  | a :: anc => pathNode D anc ++ D.moves a.parent

/-- The children of all states, those of the last one included. -/
def fullNode (D : ZDfa) (anc : List Anc) (s : Nat) : List (Nat × Nat) := pathNode D anc ++ D.moves s

/-- Going forward a cursor is behind the child that is taken. -/
def lead : Bool → Int
  | true => 1
  | false => 0

/-- The layers of the ancestors. -/
def pathLayers (D : ZDfa) (fwd : Bool) (anc : List Anc) : List Layer :=
  anc.map (fun a => layer D a.parent (a.idx + lead fwd))

/-- The iterator is about to enter the state at the end of a path. -/
structure Enters (D : ZDfa) (root : Nat) (it : Iter) (fwd : Bool) (anc : List Anc) (s : Nat) :
    Prop where
  path : Leads D root anc s
  word : it.word = pathWord D anc
  node : it.node = pathNode D anc
  layers : it.layers = pathLayers D fwd anc
  forward : it.isForward = fwd
  root : it.root = root

/-- The iterator has entered the state, with its cursor at `i`. -/
structure Sits (D : ZDfa) (root : Nat) (it : Iter) (fwd : Bool) (anc : List Anc) (s : Nat)
    (i : Int) : Prop where
  path : Leads D root anc s
  word : it.word = full D anc s
  node : it.node = fullNode D anc s
  layers : it.layers = layer D s i :: pathLayers D fwd anc
  forward : it.isForward = fwd
  root : it.root = root

@[simp] theorem push_word (it : Iter) (s : Nat) (i : Int) :
    (it.push D s i).word = it.word ++ D.zdata s := by
  rw [ZDfa.zdata, Iter.push]
  cases D.zpath s with
  | none => exact (append_nil _).symm
  | some zs => rfl

@[simp] theorem layer_zlen (s : Nat) (i : Int) : (layer D s i).zlen = (D.zdata s).length := by
  rw [ZDfa.zdata, layer]
  cases D.zpath s <;> rfl

section

variable {root : Nat} {it : Iter} {fwd : Bool} {anc : List Anc} {s : Nat} {j : Int}

/-- Entering a state puts its layer on the stack. -/
theorem Enters.push (h : Enters D root it fwd anc s) (i : Int) :
    Sits D root (it.push D s i) fwd anc s i where
  path := h.path
  word := by rw [push_word, h.word, full]
  node := congrArg (fun l => l ++ D.moves s) h.node
  layers := congrArg (cons _) h.layers
  forward := h.forward
  root := h.root

/-- `mark_word_end_zero_at` changes nothing but the current state. -/
theorem Sits.mark {i : Int} (h : Sits D root it fwd anc s i) (curr : Option Nat) :
    Sits D root { it with curr := curr } fwd anc s i :=
  ⟨h.path, h.word, h.node, h.layers, h.forward, h.root⟩

/-- A child is taken: the cursor of the layer is where the direction wants it. -/
theorem Sits.take {i : Nat} (h : Sits D root it fwd anc s (i + lead fwd))
    (hm : (D.moves s)[i]? = some m) :
    Enters D root { it with word := it.word ++ [m.1] } fwd (⟨s, i, m.1⟩ :: anc) m.2 where
  path := ⟨h.path, hm⟩
  word := congrArg (fun w => w ++ [m.1]) h.word
  node := h.node
  layers := h.layers
  forward := h.forward
  root := h.root

/-- The transitions of the state lie on top of the node stack. -/
theorem Sits.get {i : Nat} (h : Sits D root it fwd anc s j) (hm : (D.moves s)[i]? = some m) :
    it.node[(pathNode D anc).length + i]? = some m := by
  rw [h.node, fullNode, getElem?_append_right (Nat.le_add_right _ _), Nat.add_sub_cancel_left, hm]

/-- The arrays are cut at a layer below. -/
theorem Sits.cut {i : Int} {anc' : List Anc} {s' : Nat} {layers : List Layer}
    (h : Sits D root it fwd anc s i) (hpath : Leads D root anc' s')
    (hnode : fullNode D anc' s' <+: fullNode D anc s) (hword : full D anc' s' <+: full D anc s)
    (hlayers : layers = layer D s' j :: pathLayers D fwd anc') :
    Sits D root { it with node := it.node.take (fullNode D anc' s').length,
                          word := it.word.take (full D anc' s').length, layers := layers }
      fwd anc' s' j where
  path := hpath
  word := by rw [h.word]; exact (prefix_iff_eq_take.mp hword).symm
  node := by rw [h.node]; exact (prefix_iff_eq_take.mp hnode).symm
  layers := hlayers
  forward := h.forward
  root := h.root

theorem length_fullNode_sub (anc : List Anc) (s : Nat) (i : Int) :
    (fullNode D anc s).length - (layer D s i).size = (pathNode D anc).length := by
  rw [fullNode, length_append]
  exact Nat.add_sub_cancel _ _

/-- A child that is taken exists, so its cursor is moved. -/
theorem pathLayers_forward (hpath : Leads D root anc s) :
    (pathLayers D false anc).map (fun la =>
      if la.iter < la.size then { la with iter := la.iter + 1 } else la) =
        pathLayers D true anc := by
  induction anc generalizing s with
  | nil => rfl
  | cons a anc ih =>
    obtain ⟨hparent, ha⟩ := hpath
    obtain ⟨hlt, -⟩ := List.getElem_of_getElem? ha
    have hcur : (layer D a.parent (a.idx + 0)).iter < (layer D a.parent (a.idx + 0)).size := by
      show (a.idx : Int) + 0 < ((D.moves a.parent).length : Int)
      omega
    refine congrArg₂ cons ((if_pos hcur).trans ?_) (ih hparent)
    show layer D a.parent (a.idx + 0 + 1) = layer D a.parent (a.idx + 1)
    rw [Int.add_zero]

/-- Turning around forwards counts one more in every layer. -/
theorem Sits.turnForward (h : Sits D root it false anc s (-1)) :
    Sits D root it.turnForward true anc s 0 := by
  have hturn : it.turnForward = { it with
      isForward := true
      layers := it.layers.map (fun la =>
        if la.iter < la.size then { la with iter := la.iter + 1 } else la) } :=
    if_neg (by rw [h.forward]; exact Bool.false_ne_true)
  rw [hturn]
  refine ⟨h.path, h.word, h.node, ?_, rfl, h.root⟩
  rw [h.layers, map_cons, pathLayers_forward h.path]
  rfl

/-- Turning around backwards counts one less. -/
theorem Sits.turnBackward (h : Sits D root it true anc s 0) :
    Sits D root it.turnBackward false anc s (-1) := by
  have hturn : it.turnBackward = { it with
      isForward := false
      layers := it.layers.map (fun la => { la with iter := la.iter - 1 }) } :=
    if_pos h.forward
  rw [hturn]
  refine ⟨h.path, h.word, h.node, ?_, rfl, h.root⟩
  show it.layers.map _ = _
  rw [h.layers, map_cons, pathLayers, List.map_map]
  congr 1
  refine map_congr_left (fun a _ => ?_)
  show layer D a.parent (a.idx + 1 - 1) = layer D a.parent (a.idx + 0)
  rw [Int.add_sub_cancel, Int.add_zero]

end

/-! ## Forward -/

/-- The sizes of the arrays when a layer is left. -/
theorem leave_layer (a : Anc) (anc : List Anc) (s : Nat) (i : Int) :
    ((layer D s i).size ≤ (fullNode D (a :: anc) s).length ∧
      (layer D s i).zlen + 1 ≤ (full D (a :: anc) s).length) ∧
    (fullNode D (a :: anc) s).length - (layer D s i).size = (fullNode D anc a.parent).length ∧
    (full D (a :: anc) s).length - ((layer D s i).zlen + 1) = (full D anc a.parent).length := by
  have hall : (fullNode D (a :: anc) s).length =
      (fullNode D anc a.parent).length + (layer D s i).size := length_append
  have hlen : (full D (a :: anc) s).length =
      (full D anc a.parent).length + ((layer D s i).zlen + 1) := by
    rw [layer_zlen, full_cons, length_append, length_append, length_singleton]
    omega
  rw [hall, hlen]
  exact ⟨⟨Nat.le_add_left _ _, Nat.le_add_left _ _⟩, Nat.add_sub_cancel _ _, Nat.add_sub_cancel _ _⟩

theorem prefix_fullNode_cons (a : Anc) (anc : List Anc) (s : Nat) :
    fullNode D anc a.parent <+: fullNode D (a :: anc) s := prefix_append _ _

/-- The climb ends outside when no word is left, else at a state with a child that is left. -/
theorem climbIncr_spec {anc : List Anc} {s i : Nat} (hpath : Leads D root anc s)
    (hi : i ≤ (D.moves s).length) :
    (climbIncr (layer D s i :: pathLayers D true anc) (fullNode D anc s).length
        (full D anc s).length = some .outside ∧ rest D anc s i = []) ∨
    ∃ anc' s' i', Leads D root anc' s' ∧ i' < (D.moves s').length ∧
      fullNode D anc' s' <+: fullNode D anc s ∧ full D anc' s' <+: full D anc s ∧
      rest D anc s i = rest D anc' s' i' ∧
      climbIncr (layer D s i :: pathLayers D true anc) (fullNode D anc s).length
        (full D anc s).length =
        some (.child (layer D s' i') (pathLayers D true anc') (fullNode D anc' s').length
          (full D anc' s').length) := by
  by_cases hend : i = (D.moves s).length
  · have hiter : (layer D s i).iter = (layer D s i).size := congrArg Int.ofNat hend
    rw [climbIncr, if_pos hiter]
    cases anc with
    | nil => exact .inl ⟨if_pos rfl, rest_end hend.ge⟩
    | cons a anc =>
      -- the layer is left, and the cursor of the next one is behind the child it came from
      obtain ⟨hparent, ha⟩ := hpath
      obtain ⟨hlt, -⟩ := List.getElem_of_getElem? ha
      have hne : pathLayers D true (a :: anc) ≠ [] := cons_ne_nil _ _
      obtain ⟨hroom, hall, hlen⟩ := leave_layer (D := D) a anc s i
      have hrest : rest D (a :: anc) s i = rest D anc a.parent (a.idx + 1) :=
        rest_end hend.ge
      rw [if_neg hne, if_pos hroom, hall, hlen, hrest]
      rcases climbIncr_spec hparent hlt with
        hover | ⟨anc', s', i', hpath', hi', hnode, hword, heq, hclimb⟩
      · exact .inl hover
      · exact .inr ⟨anc', s', i', hpath', hi', hnode.trans (prefix_fullNode_cons a anc s),
          hword.trans (prefix_full_cons a anc s), heq, hclimb⟩
  · refine .inr ⟨anc, s, i, hpath, by omega, prefix_rfl, prefix_rfl, rfl, ?_⟩
    exact if_neg (fun h => hend (Int.ofNat.inj h))

section

variable {anc : List Anc} {s : Nat} (hacyclic : D.Acyclic) (hlive : D.Live)

include hacyclic hlive

/-- The descent ends at the first word still to come. -/
theorem descendFirst_spec (hrank : ∀ s t, D.Edge s t → rank t < rank s) {i : Nat}
    (hsits : Sits D root it true anc s (i + lead true)) (hm : (D.moves s)[i]? = some m)
    (hfuel : rank m.2 < fuel) :
    ∃ it' anc' t, descendFirst D fuel it ((pathNode D anc).length + i) = some (it', true) ∧
      Sits D root it' true anc' t 0 ∧ D.term t = true ∧
      rest D anc s i = full D anc' t :: rest D anc' t 0 := by
  induction fuel generalizing it anc s i m with
  | zero => cases hfuel
  | succ fuel ih =>
    have hget := hsits.get hm
    have henter := hsits.take hm
    have hrest := rest_take hacyclic anc hm
    by_cases hterm : D.term m.2 = true
    · refine ⟨_, _, m.2, ?_, (henter.push 0).mark (some m.2), hterm, ?_⟩
      · rw [descendFirst, hget, bind_some]
        dsimp only
        exact if_pos hterm
      · rw [hrest, ZDfa.own, if_pos hterm]
        rfl
    -- a state that is not final has a child
    have hlt : m.2 < D.states := D.targets s m (mem_of_getElem? hm)
    have hne : D.moves m.2 ≠ [] := fun hleaf => hterm (hlive.term_of_leaf hlt hleaf)
    obtain ⟨x, xs, hx⟩ := exists_cons_of_ne_nil hne
    have hfirst : (D.moves m.2)[0]? = some x := by rw [hx]; rfl
    have hless : rank x.2 < fuel := by
      have h1 := hrank m.2 x.2 ⟨x.1, mem_of_getElem? hfirst⟩
      omega
    have hlen : it.node.length = (pathNode D (⟨s, i, m.1⟩ :: anc)).length + 0 :=
      congrArg length hsits.node
    obtain ⟨it', anc', t, hrun, hsits', hterm', heq⟩ := ih (henter.push 1) hfirst hless
    refine ⟨it', anc', t, ?_, hsits', hterm', ?_⟩
    · rw [descendFirst, hget, bind_some]
      rw [if_neg hterm, if_pos (fun h => hne (length_eq_zero_iff.mp h)), hlen]
      exact hrun
    · rw [hrest, ZDfa.own, if_neg hterm, nil_append, heq]

/-- `incr` goes to the next word, or there is none. -/
theorem incr_spec {i : Nat} (h : Sits D root it.turnForward true anc s i)
    (hi : i ≤ (D.moves s).length) :
    (∃ it', it.incr D = some (it', false) ∧ it'.layers = [] ∧ it'.root = root ∧
      rest D anc s i = []) ∨
    ∃ it' anc' t, it.incr D = some (it', true) ∧ Sits D root it' true anc' t 0 ∧
      D.term t = true ∧ rest D anc s i = full D anc' t :: rest D anc' t 0 := by
  obtain ⟨rank, hle, hrank⟩ := hacyclic.exists_rank
  have hne : it.layers ≠ [] := by
    intro hnil
    have hlayers := h.layers
    unfold Iter.turnForward at hlayers
    split at hlayers <;> simp [hnil] at hlayers
  rw [Iter.incr, if_neg hne]
  dsimp only
  generalize it.turnForward = it1 at h
  have hnode : it1.node.length = (fullNode D anc s).length := congrArg _ h.node
  have hword : it1.word.length = (full D anc s).length := congrArg _ h.word
  rw [h.layers, hnode, hword]
  rcases climbIncr_spec h.path hi with ⟨hclimb, hrest⟩ |
    ⟨anc', s', i', hpath', hi', hnode', hword', hrest, hclimb⟩
  · rw [hclimb]
    exact .inl ⟨_, rfl, rfl, h.root, hrest⟩
  right
  rw [hclimb, hrest]
  have hsits := h.cut hpath' hnode' hword' (j := i' + lead true) rfl
  obtain ⟨it', anc2, t, hrun, hsits', hterm, heq⟩ := descendFirst_spec hacyclic hlive hrank hsits
    (getElem?_eq_getElem hi') (Nat.lt_succ_of_le (hle _))
  refine ⟨it', anc2, t, ?_, hsits', hterm, heq⟩
  rw [bind_some]
  dsimp only
  rw [length_fullNode_sub]
  exact hrun

end

/-! ## Backward -/

/-- Where the climb may end, for the words that are before. -/
inductive ClimbedBack (D : ZDfa) (root : Nat) (node : List (Nat × Nat)) (word : List Nat) :
    Option Climb → List (List Nat) → Prop
  | outside : ClimbedBack D root node word (some .outside) []
  | own {anc : List Anc} {s : Nat} (path : Leads D root anc s) (term : D.term s = true)
      (hnode : fullNode D anc s <+: node) (hword : full D anc s <+: word) :
      ClimbedBack D root node word
        (some (.own (layer D s (-1)) (pathLayers D false anc) (fullNode D anc s).length
          (full D anc s).length))
        (before D anc ++ [full D anc s])
  | child {anc : List Anc} {s i : Nat} (path : Leads D root anc s) (lt : i < (D.moves s).length)
      (hnode : fullNode D anc s <+: node) (hword : full D anc s <+: word) :
      ClimbedBack D root node word
        (some (.child (layer D s (i + 1 : Nat)) (pathLayers D false anc) (fullNode D anc s).length
          (full D anc s).length))
        (upTo D anc s (i + 1))

theorem ClimbedBack.mono {node node' : List (Nat × Nat)} {word word' : List Nat} {r : Option Climb}
    (h : ClimbedBack D root node word r l) (hnode : node <+: node') (hword : word <+: word') :
    ClimbedBack D root node' word' r l := by
  cases h with
  | outside => exact .outside
  | own path term hn hw => exact .own path term (hn.trans hnode) (hw.trans hword)
  | child path lt hn hw => exact .child path lt (hn.trans hnode) (hw.trans hword)

/-- The climb from a state with its cursor at `i` ends with the words `l` before. -/
def BacksTo (D : ZDfa) (root : Nat) (anc : List Anc) (s : Nat) (i : Int) (l : List (List Nat)) :
    Prop :=
  ClimbedBack D root (fullNode D anc s) (full D anc s)
    (climbDecr D (layer D s i :: pathLayers D false anc) (fullNode D anc s).length
      (full D anc s).length) l

variable {anc : List Anc} {s : Nat}

/-- A layer whose cursor is before all children is left. -/
theorem climbDecr_left (s : Nat) (ls : List Layer) (all len : Nat) :
    climbDecr D (layer D s (-1) :: ls) all len =
      if ls = [] then some .outside
      else if (layer D s (-1)).size ≤ all ∧ (layer D s (-1)).zlen + 1 ≤ len then
        climbDecr D ls (all - (layer D s (-1)).size) (len - ((layer D s (-1)).zlen + 1))
      else none := by
  have h1 : ¬ ((layer D s (-1)).iter = 0 ∧ D.term (layer D s (-1)).parent = true) := by
    rintro ⟨h, -⟩
    exact absurd h (show ¬ (-1 : Int) = 0 by decide)
  have hor1 : (layer D s (-1)).iter = 0 ∨ (layer D s (-1)).iter = -1 := .inr rfl
  rw [climbDecr, if_neg h1, if_pos hor1]

/-- A cursor at the first child is as good as one before it, if the state is not final. -/
theorem climbDecr_zero (hterm : D.term s ≠ true) (ls : List Layer) (all len : Nat) :
    climbDecr D (layer D s 0 :: ls) all len = climbDecr D (layer D s (-1) :: ls) all len := by
  have h0 : ¬ ((layer D s 0).iter = 0 ∧ D.term (layer D s 0).parent = true) := fun h => hterm h.2
  rw [climbDecr, if_neg h0]
  rfl

/-- The climb from a cursor at a child, when the climb from before all children is known. -/
theorem climbDecr_at (hpath : Leads D root anc s)
    (hback : BacksTo D root anc s (-1) (before D anc)) :
    ∀ i ≤ (D.moves s).length, BacksTo D root anc s i (upTo D anc s i) := by
  intro i hi
  unfold BacksTo at hback ⊢
  cases i with
  | zero =>
    have hupTo : upTo D anc s 0 = before D anc ++ D.own s (full D anc s) := append_nil _
    rw [hupTo, ZDfa.own]
    by_cases hterm : D.term s = true
    · -- the word of the state itself
      have h0 : (layer D s (0 : Nat)).iter = 0 ∧ D.term (layer D s (0 : Nat)).parent = true :=
        ⟨rfl, hterm⟩
      rw [if_pos hterm, climbDecr, if_pos h0]
      exact .own hpath hterm prefix_rfl prefix_rfl
    · rw [if_neg hterm, append_nil]
      exact climbDecr_zero hterm _ _ _ ▸ hback
  | succ i =>
    exact .child hpath hi prefix_rfl prefix_rfl

/-- The climb over a path, with the cursor of the last state at a child or before all. -/
theorem climbDecr_spec (hpath : Leads D root anc s) :
    (∀ i ≤ (D.moves s).length, BacksTo D root anc s i (upTo D anc s i)) ∧
      BacksTo D root anc s (-1) (before D anc) := by
  induction anc generalizing s with
  | nil =>
    have hback : BacksTo D root [] s (-1) (before D []) := by
      rw [BacksTo]
      exact .outside
    exact ⟨climbDecr_at hpath hback, hback⟩
  | cons a anc ih =>
    obtain ⟨hparent, ha⟩ := hpath
    obtain ⟨hlt, -⟩ := List.getElem_of_getElem? ha
    have hback : BacksTo D root (a :: anc) s (-1) (before D (a :: anc)) := by
      have hne : pathLayers D false (a :: anc) ≠ [] := cons_ne_nil _ _
      obtain ⟨hroom, hall, hlen⟩ := leave_layer (D := D) a anc s (-1)
      have habove := (ih hparent).1 a.idx hlt.le
      rw [← Int.add_zero (a.idx : Int)] at habove
      rw [BacksTo, climbDecr_left, if_pos hroom, hall, hlen]
      exact habove.mono (prefix_fullNode_cons a anc s) (prefix_full_cons a anc s)
    exact ⟨climbDecr_at ⟨hparent, ha⟩ hback, hback⟩

section

variable (hacyclic : D.Acyclic) (hlive : D.Live)

include hacyclic hlive

/-- The descent ends at the last of the words before. -/
theorem descendLast_spec (hrank : ∀ s t, D.Edge s t → rank t < rank s) {i : Nat}
    (hsits : Sits D root it false anc s (i + lead false)) (hm : (D.moves s)[i]? = some m)
    (hfuel : rank m.2 < fuel) :
    ∃ it' anc' t, descendLast D fuel it ((pathNode D anc).length + i) = some (it', true) ∧
      Sits D root it' false anc' t (-1) ∧ D.term t = true ∧
      upTo D anc s (i + 1) = before D anc' ++ [full D anc' t] := by
  induction fuel generalizing it anc s i m with
  | zero => cases hfuel
  | succ fuel ih =>
    have hget := hsits.get hm
    have henter := (hsits.take hm).push ((D.moves m.2).length - 1 : Int)
    rw [upTo_take hacyclic anc hm]
    -- a leaf is final, since it is alive
    cases hmoves : D.moves m.2 with
    | nil =>
      have hterm := hlive.term_of_leaf (D.targets s m (mem_of_getElem? hm)) hmoves
      have hlen : (D.moves m.2).length = 0 := by rw [hmoves]; rfl
      have hcur : ((D.moves m.2).length - 1 : Int) = -1 := by rw [hlen]; rfl
      rw [hcur] at henter
      refine ⟨_, ⟨s, i, m.1⟩ :: anc, m.2, ?_, henter.mark (some m.2), hterm, ?_⟩
      · rw [descendLast, hget, bind_some, hcur]
        exact if_neg (fun h => h hlen)
      · rw [upTo, ZDfa.own, if_pos hterm]
        exact append_nil _
    | cons x xs =>
      have hlen : (D.moves m.2).length = xs.length + 1 := by rw [hmoves]; rfl
      have hlast : xs.length < (D.moves m.2).length := by omega
      have hless : rank (D.moves m.2)[xs.length].2 < fuel := by
        have h1 := hrank m.2 (D.moves m.2)[xs.length].2 ⟨_, getElem_mem hlast⟩
        omega
      have hcur : ((D.moves m.2).length - 1 : Int) = (xs.length : Int) + lead false := by
        rw [hlen]
        show ((xs.length + 1 : Nat) : Int) - 1 = (xs.length : Int) + 0
        omega
      have hitop : it.node.length + (D.moves m.2).length - 1 =
          (pathNode D (⟨s, i, m.1⟩ :: anc)).length + xs.length := by
        rw [hlen]
        exact congrArg (fun l => length l + xs.length) hsits.node
      rw [hcur] at henter
      obtain ⟨it', anc', t, hrun, hsits', hterm, heq⟩ :=
        ih henter (getElem?_eq_getElem hlast) hless
      refine ⟨it', anc', t, ?_, hsits', hterm, heq⟩
      rw [descendLast, hget, bind_some, hcur]
      rw [if_pos (by rw [hlen]; exact Nat.succ_ne_zero _), hitop]
      exact hrun

/-- `decr` goes to the word before, or there is none. -/
theorem decr_spec {i : Int} (h : Sits D root it.turnBackward false anc s i)
    (hclimb : BacksTo D root anc s i l) :
    (∃ it', it.decr D = some (it', false) ∧ it'.layers = [] ∧ it'.root = root ∧ l = []) ∨
    ∃ it' anc' t, it.decr D = some (it', true) ∧ Sits D root it' false anc' t (-1) ∧
      D.term t = true ∧ l = before D anc' ++ [full D anc' t] := by
  obtain ⟨rank, hle, hrank⟩ := hacyclic.exists_rank
  have hne : it.layers ≠ [] := by
    intro hnil
    have hlayers := h.layers
    unfold Iter.turnBackward at hlayers
    split at hlayers <;> simp [hnil] at hlayers
  rw [Iter.decr, if_neg hne]
  dsimp only
  generalize it.turnBackward = it1 at h
  have hnode : it1.node.length = (fullNode D anc s).length := congrArg _ h.node
  have hword : it1.word.length = (full D anc s).length := congrArg _ h.word
  rw [h.layers, hnode, hword]
  unfold BacksTo at hclimb
  generalize climbDecr D _ _ _ = r at hclimb
  cases hclimb with
  | outside => exact .inl ⟨_, rfl, rfl, h.root, rfl⟩
  | @own anc' s' path term hnode' hword' =>
    exact .inr ⟨_, anc', s', rfl, (h.cut path hnode' hword' rfl).mark (some s'), term, rfl⟩
  | @child anc' s' i' path lt hnode' hword' =>
    right
    have hcur : ((i' + 1 : Nat) : Int) - 1 = (i' : Int) + lead false := by
      show ((i' + 1 : Nat) : Int) - 1 = (i' : Int) + 0
      omega
    have hlayer := congrArg (layer D s') hcur
    have hsits := h.cut path hnode' hword' (congrArg (· :: pathLayers D false anc') hlayer)
    obtain ⟨it', anc2, t, hrun, hsits', hterm, heq⟩ := descendLast_spec hacyclic hlive hrank hsits
      (getElem?_eq_getElem lt) (Nat.lt_succ_of_le (hle _))
    refine ⟨it', anc2, t, ?_, hsits', hterm, heq⟩
    have hidx : ((layer D s' (i' + 1 : Nat)).iter - 1).toNat = i' := by
      show (((i' + 1 : Nat) : Int) - 1).toNat = i'
      omega
    rw [bind_some]
    dsimp only
    rw [length_fullNode_sub, hidx]
    exact hrun

end

end LexIter
