import ToplingArk.SearchProofs
import ToplingArk.SortedCursorProofs
import ToplingArk.ZpathDfaProofs

/-! # MyLexIteratorT — an iterator over the words of an acyclic automaton

    The iterator keeps the path to its state as a stack of layers, one for every state, each
    with a cursor into the children of its state; the children of all layers stand in one
    array, and the word grows and shrinks with the stack.  Going forward a cursor is behind
    the child that the path takes, going backward it is at that child; the cursors are moved
    when the direction changes.

    The stack is a list here, the innermost layer first.  Letters are bytes, so that no
    conversion of the source changes one.  `none` is a read outside an array, a size that
    would become negative, or the exception for a state without children that is not final. -/

namespace LexIter

open Automata Zpath

/-- A layer of the iterator's stack. -/
structure Layer where
  parent : Nat
  iter : Int
  size : Nat
  zlen : Nat
  deriving DecidableEq, Repr

/-- `ADFA_LexIteratorData`: `m_root`, `m_word`, `m_iter`, `m_node`, `m_curr`, `m_isForward`. -/
structure Iter where
  root : Nat
  word : List Nat
  layers : List Layer
  node : List (Nat × Nat)
  curr : Option Nat
  isForward : Bool
  deriving DecidableEq, Repr

/-- What `reset` leaves: nothing but the new root. -/
def Iter.reset1 (it : Iter) (root : Nat) : Iter :=
  { it with root := root, curr := none, word := [], layers := [], node := [] }

/-- A new iterator, after `reset`. -/
def Iter.new (root : Nat) : Iter where
  root := root
  word := []
  layers := []
  node := []
  curr := none
  isForward := true

variable (D : ZDfa)

/-- A new layer for `curr`. -/
def layer (curr : Nat) (iter : Int) : Layer where
  parent := curr
  iter := iter
  size := (D.moves curr).length
  zlen := match D.zpath curr with
    | some zs => zs.length
    | none => 0

/-- A state is entered: its children, its string and its layer are appended. -/
def Iter.push (it : Iter) (curr : Nat) (iter : Int) : Iter :=
  { it with
    node := it.node ++ D.moves curr
    word := match D.zpath curr with
      | some zs => it.word ++ zs
      | none => it.word
    layers := layer D curr iter :: it.layers }

/-! ## incr -/

/-- Where a climb ends: outside, at a layer whose own word is next, or at a layer that has
    another child; with the sizes of `m_node` and `m_word` there. -/
inductive Climb where
  | outside
  | own (la : Layer) (rest : List Layer) (all len : Nat)
  | child (la : Layer) (rest : List Layer) (all len : Nat)

/-- Layers without further children are left. -/
def climbIncr : List Layer → Nat → Nat → Option Climb
  | [], _, _ => some .outside
  | la :: rest, all, len =>
    if la.iter = la.size then
      if rest = [] then some .outside
      else if la.size ≤ all ∧ la.zlen + 1 ≤ len then
        climbIncr rest (all - la.size) (len - (la.zlen + 1))
      else none
    else some (.child la rest all len)

/-- Down to the first word behind the child at `itop`. -/
def descendFirst (D : ZDfa) : Nat → Iter → Nat → Option (Iter × Bool)
  | 0, _, _ => none
  | fuel + 1, it, itop =>
    it.node[itop]?.bind (fun m =>
      let it' := { it with word := it.word ++ [m.1] }
      if D.term m.2 then some ({ it'.push D m.2 0 with curr := some m.2 }, true)
      else if (D.moves m.2).length ≠ 0 then
        descendFirst D fuel (it'.push D m.2 1) it.node.length
      else none)

/-- The cursors when the direction becomes forward. -/
def Iter.turnForward (it : Iter) : Iter :=
  if it.isForward then it
  else
    { it with
      isForward := true
      layers := it.layers.map (fun la =>
        if la.iter < la.size then { la with iter := la.iter + 1 } else la) }

/-- `incr` -/
def Iter.incr (it : Iter) : Option (Iter × Bool) :=
  if it.layers = [] then some (it, false)
  else
    let it := it.turnForward
    (climbIncr it.layers it.node.length it.word.length).bind (fun
      | .outside => some ({ it with layers := [] }, false)
      | .own _ _ _ _ => none
      | .child la rest all len =>
        descendFirst D (D.states + 1)
          { it with
            node := it.node.take all
            word := it.word.take len
            layers := { la with iter := la.iter + 1 } :: rest }
          (all - la.size + la.iter.toNat))

/-! ## decr -/

/-- Layers are left until one has a word of its own or a child before. -/
def climbDecr (D : ZDfa) : List Layer → Nat → Nat → Option Climb
  | [], _, _ => some .outside
  | la :: rest, all, len =>
    if la.iter = 0 ∧ D.term la.parent then some (.own { la with iter := -1 } rest all len)
    else if la.iter = 0 ∨ la.iter = -1 then
      if rest = [] then some .outside
      else if la.size ≤ all ∧ la.zlen + 1 ≤ len then
        climbDecr D rest (all - la.size) (len - (la.zlen + 1))
      else none
    else some (.child la rest all len)

/-- Down to the last word behind the child at `itop`. -/
def descendLast (D : ZDfa) : Nat → Iter → Nat → Option (Iter × Bool)
  | 0, _, _ => none
  | fuel + 1, it, itop =>
    it.node[itop]?.bind (fun m =>
      let it' := { it with word := it.word ++ [m.1] }.push D m.2 ((D.moves m.2).length - 1 : Int)
      if (D.moves m.2).length ≠ 0 then
        descendLast D fuel it' (it.node.length + (D.moves m.2).length - 1)
      else some ({ it' with curr := some m.2 }, true))

/-- The cursors when the direction becomes backward. -/
def Iter.turnBackward (it : Iter) : Iter :=
  if it.isForward then
    { it with
      isForward := false
      layers := it.layers.map (fun la => { la with iter := la.iter - 1 }) }
  else it

/-- `decr` -/
def Iter.decr (it : Iter) : Option (Iter × Bool) :=
  if it.layers = [] then some (it, false)
  else
    let it := it.turnBackward
    (climbDecr D it.layers it.node.length it.word.length).bind (fun
      | .outside => some ({ it with layers := [] }, false)
      | .own la rest all len =>
        some ({ it with
                node := it.node.take all
                word := it.word.take len
                layers := la :: rest
                curr := some la.parent }, true)
      | .child la rest all len =>
        descendLast D (D.states + 1)
          { it with
            node := it.node.take all
            word := it.word.take len
            layers := { la with iter := la.iter - 1 } :: rest }
          (all - la.size + (la.iter - 1).toNat))

/-! ## Seeking -/

/-- `seek_end` -/
def Iter.seekEnd (it : Iter) : Option (Iter × Bool) :=
  ({ it.reset1 it.root with isForward := false }.push D it.root (D.moves it.root).length).decr D

/-- The key from its position on is compared with a string, as far as both go. -/
def matchZpath : List Nat → List Nat → Ordering
  | c :: key, z :: zs => if c < z then .lt else if z < c then .gt else matchZpath key zs
  | _, _ => .eq

/-- Where the key is: at the word of a state or before it, behind all words of the state, or
    behind its string. -/
inductive Place where
  | here
  | behind
  | below (pos : Nat)

/-- How the key continues along an edge string. -/
def compareZpath (curr : Nat) (key : List Nat) (pos : Nat) : Place :=
  match D.zpath curr with
  | some zs =>
    match matchZpath (key.drop pos) zs with
    | .lt => .here
    | .gt => .behind
    | .eq => if key.length - pos ≤ zs.length then .here else .below (pos + zs.length)
  | none => if key.length = pos then .here else .below pos

/-- `lower_bound_ex` by the letters of transitions. -/
def lowerBoundEx (ms : List (Nat × Nat)) (uch : Nat) : Option Nat :=
  Search.upperBound (fun mid => ms[mid]?.map (fun m => decide (m.1 < uch))) 0 ms.length

/-- The loop of `set_to_lower_bound`: a state and a position in the key. -/
def lowerBoundLoop (D : ZDfa) (key : List Nat) : Nat → Iter → Nat → Nat → Option (Iter × Bool)
  | 0, _, _, _ => none
  | fuel + 1, it, curr, pos =>
    match compareZpath D curr key pos with
    | .here =>
      let it := { it.push D curr 0 with curr := some curr }
      if D.term curr then some (it, true) else it.incr D
    | .behind => (it.push D curr (D.moves curr).length).incr D
    | .below pos =>
      if (D.moves curr).length = 0 then
        let it := { it.push D curr 0 with curr := some curr }
        if it.word.length = key.length then
          if D.term curr then some (it, true) else it.incr D
        else if it.word.length < key.length then it.incr D
        else some (it, false)
      else
        key[pos]?.bind (fun uch =>
          (lowerBoundEx (D.moves curr) uch).bind (fun low =>
            match (D.moves curr)[low]? with
            | some m =>
              if uch = m.1 then
                let it := it.push D curr (low + 1 : Nat)
                lowerBoundLoop D key fuel { it with word := it.word ++ [uch] } m.2 (pos + 1)
              else (it.push D curr low).incr D
            | none => (it.push D curr low).incr D))

/-- `seek_lower_bound`, through `set_to_lower_bound`. -/
def Iter.seekLowerBound (it : Iter) (key : List Nat) : Option (Iter × Bool) :=
  lowerBoundLoop D key (key.length + 1) { it.reset1 it.root with isForward := true } it.root 0

/-- `seek_begin` -/
def Iter.seekBegin (it : Iter) : Option (Iter × Bool) := it.seekLowerBound D []

/-- One call of the iterator. -/
def Iter.call (it : Iter) : Cursor.Call (List Nat) → Option (Iter × Bool)
  | .seek key => it.seekLowerBound D key
  | .first => it.seekBegin D
  | .last => it.seekEnd D
  | .next => it.incr D
  | .prev => it.decr D

/-- A call, and what it shows: `word()` if the call returned true. -/
def Iter.observe (it : Iter) (c : Cursor.Call (List Nat)) : Option (Iter × Option (List Nat)) :=
  (it.call D c).map (fun r => (r.1, if r.2 then some r.1.word else none))

end LexIter
