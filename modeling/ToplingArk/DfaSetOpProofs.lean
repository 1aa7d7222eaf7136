import Mathlib.Data.List.Sort
import ToplingArk.DeadStatesProofs
import ToplingArk.SubSetMapProofs

/-! # dfa_union, dfa_intersection, dfa_difference — products built on the fly

    The states of the result are numbered in the order in which they are found: pairs of
    states for two automata, where one of the two may have died, and sets of states for a
    list of roots.  Each one is expanded once: its transitions are merged from those of its
    parts, and their targets are numbered.  The results of intersection and difference lose
    their dead states.

    `none` is an exception: too many states, a hash table that cannot grow, or the limit of
    the caller. -/

namespace DfaSetOp

open Automata Explore OnflyMinimize

/-! ## What is read of a source -/

/-- A source automaton: `get_all_move` and `for_each_move` give the transitions by ascending
    letters, and `state_id_t(-1)` is no state. -/
structure Src where
  states : Nat
  sigma : Nat
  idBits : Nat
  moves : Nat → List (Nat × Nat)
  term : Nat → Bool
  width : idBits = 32 ∨ idBits = 64
  few : states < 2 ^ idBits
  ascending : ∀ s, Ascending (moves s)
  letters : ∀ s, ∀ m ∈ moves s, m.1 < sigma
  targets : ∀ s, ∀ m ∈ moves s, m.2 < states

/-- Also past the last row, where there are no transitions. -/
theorem rows_ok {rows : List (List (Nat × Nat))} {n : Nat}
    (h : ∀ row ∈ rows, Ascending row ∧ ∀ m ∈ row, m.1 < 256 ∧ m.2 < n) (s : Nat) :
    Ascending (rows.getD s []) ∧ ∀ m ∈ rows.getD s [], m.1 < 256 ∧ m.2 < n := by
  rw [List.getD_eq_getElem?_getD]
  cases hrow : rows[s]? with
  | none => exact ⟨.nil, List.forall_mem_nil _⟩
  | some row => exact h row (List.mem_of_getElem? hrow)

/-- A source of bytes that is given by the transitions of its states. -/
def Src.ofRows (rows : List (List (Nat × Nat))) (term : Nat → Bool) (hfew : rows.length < 2 ^ 32)
    (hrows : ∀ row ∈ rows, Ascending row ∧ ∀ m ∈ row, m.1 < 256 ∧ m.2 < rows.length) : Src where
  states := rows.length
  sigma := 256
  idBits := 32
  moves := fun s => rows.getD s []
  term := term
  width := .inl rfl
  few := hfew
  ascending := fun s => (rows_ok hrows s).1
  letters := fun s m hm => ((rows_ok hrows s).2 m hm).1
  targets := fun s m hm => ((rows_ok hrows s).2 m hm).2

/-- The automaton that is read. -/
def Src.dfa (A : Src) : Dfa.Pdfa Nat Nat where
  final := A.term
  next := fun s => target (A.moves s)

/-- `state_id_t(-1)`, an operand that has died. -/
def Src.dead (A : Src) : Nat := 2 ^ A.idBits - 1

/-! ## The loop -/

/-- A key is expanded: its edges are numbered, and its transitions and its final bit are
    written to the state with its number.  `finish` is what is done to the transitions. -/
def expand {K : Type} (P : StateTp) (T : Table K) (succ : K → List (Nat × K)) (final : K → Bool)
    (finish : List (Nat × Nat) → List (Nat × Nat)) (power : T.Tab → Nat) (powerLimit : Nat)
    (s : T.Tab × Store) (bfshead : Nat) : Option (T.Tab × Store) :=
  (T.at? s.1 bfshead).bind (fun parent =>
    (numberAll T s.1 (succ parent)).bind (fun r =>
      if powerLimit < power r.1 then none
      else
        (if r.2 = [] then some s.2
         else (s.2.resizeStates P (T.size r.1)).bind (fun dst =>
           dst.addAllMove P bfshead (finish r.2))).bind (fun dst =>
             (if final parent then dst.setTerm bfshead true else some dst).map (fun dst =>
               (r.1, dst)))))

/-- Keys are expanded while there are any. -/
def explore {K : Type} (P : StateTp) (T : Table K) (succ : K → List (Nat × K)) (final : K → Bool)
    (finish : List (Nat × Nat) → List (Nat × Nat)) (power : T.Tab → Nat) (powerLimit : Nat) :
    Nat → Nat → T.Tab × Store → Option (T.Tab × Store)
  | 0, _, _ => none
  | fuel + 1, bfshead, s =>
    if bfshead < T.size s.1 then
      (expand P T succ final finish power powerLimit s bfshead).bind
        (explore P T succ final finish power powerLimit fuel (bfshead + 1))
    else some s

/-! ## Two operands -/

/-- The hash of a pair, in 64 bits. -/
def uintPairHash (bits1 bits2 : Nat) (x : Nat × Nat) : Nat :=
  if bits1 = 32 ∧ bits2 = 32 then
    ((BitVec.ofNat 64 x.1 <<< 32) ||| BitVec.ofNat 64 x.2).toNat
  else
    (SubSetMap.mix (SubSetMap.mix (BitVec.ofNat 64 x.1) + BitVec.ofNat 64 x.2)).toNat

/-- The types of `pmap`. -/
def pairTraits (bits1 bits2 : Nat) : GoldHash.Traits (Nat × Nat) (Nat × Nat) where
  link := .u32
  hashBits := 64
  copy := .fast
  hash := uintPairHash bits1 bits2
  equal := fun x y => x.1 == y.1 && x.2 == y.2
  extract := id

/-- `pmap`. -/
def pairs (bits1 bits2 : Nat) : Table (Nat × Nat) where
  Tab := GoldHash.Tab (Nat × Nat)
  size := GoldHash.Tab.nElem
  at? := GoldHash.Tab.elemAt
  insert := fun t key => (GoldHash.insertI (pairTraits bits1 bits2) t key).map
    (fun r => (r.1, r.2.1))

/-- The loops over `children1` and `children2`, by the number of their rounds: a letter of both
    leads to a pair, and a letter of one operand to a pair with the other one dead, if it is
    kept at all. -/
def mergeMoves (keep1 keep2 : Bool) (dead1 dead2 : Nat) :
    Nat → List (Nat × Nat) → List (Nat × Nat) → List (Nat × (Nat × Nat))
  | 0, _, _ => []
  | _ + 1, [], [] => []
  | fuel + 1, ct1 :: l1, [] =>
    let rest := mergeMoves keep1 keep2 dead1 dead2 fuel l1 []
    if keep1 then (ct1.1, (ct1.2, dead2)) :: rest else rest
  | fuel + 1, [], ct2 :: l2 =>
    let rest := mergeMoves keep1 keep2 dead1 dead2 fuel [] l2
    if keep2 then (ct2.1, (dead1, ct2.2)) :: rest else rest
  | fuel + 1, ct1 :: l1, ct2 :: l2 =>
    if ct1.1 = ct2.1 then
      (ct1.1, (ct1.2, ct2.2)) :: mergeMoves keep1 keep2 dead1 dead2 fuel l1 l2
    else if ct1.1 < ct2.1 then
      let rest := mergeMoves keep1 keep2 dead1 dead2 fuel l1 (ct2 :: l2)
      if keep1 then (ct1.1, (ct1.2, dead2)) :: rest else rest
    else
      let rest := mergeMoves keep1 keep2 dead1 dead2 fuel (ct1 :: l1) l2
      if keep2 then (ct2.1, (dead1, ct2.2)) :: rest else rest

/-- An operation on two automata: whether the letters of one operand alone are kept, and when
    a pair is final. -/
structure Kind where
  keep1 : Bool
  keep2 : Bool
  final : Bool → Bool → Bool

/-- `dfa_union` goes on while one side does. -/
def union : Kind := { keep1 := true, keep2 := true, final := fun t1 t2 => t1 || t2 }

/-- `dfa_intersection` goes on while both sides do. -/
def intersection : Kind := { keep1 := false, keep2 := false, final := fun t1 t2 => t1 && t2 }

/-- `dfa_difference` goes on while the first side does. -/
def difference : Kind := { keep1 := true, keep2 := false, final := fun t1 t2 => t1 && !t2 }

/-- The transitions of an operand; only an operation that keeps letters of the other one alone
    asks whether it has died. -/
def movesOf (A : Src) (mayDie : Bool) (p : Nat) : List (Nat × Nat) :=
  if mayDie && p == A.dead then [] else A.moves p

/-- Whether an operand is final; a dead one is not. -/
def termOf (A : Src) (mayDie : Bool) (p : Nat) : Bool := !(mayDie && p == A.dead) && A.term p

/-- The pairs that a pair leads to. -/
def pairSucc (O : Kind) (A B : Src) (key : Nat × Nat) : List (Nat × (Nat × Nat)) :=
  let children1 := movesOf A O.keep2 key.1
  let children2 := movesOf B O.keep1 key.2
  mergeMoves O.keep1 O.keep2 A.dead B.dead (children1.length + children2.length) children1 children2

/-- Whether a pair is final. -/
def pairFinal (O : Kind) (A B : Src) (key : Nat × Nat) : Bool :=
  O.final (termOf A O.keep2 key.1) (termOf B O.keep1 key.2)

variable (P : StateTp)

/-- The common part: memory for the pairs is reserved, and the pairs are explored from that of
    the roots. -/
def product (O : Kind) (A : Src) (r1 m1 : Nat) (B : Src) (r2 m2 powerLimit : Nat) : Option Store :=
  (GoldHash.reserve (pairTraits A.idBits B.idBits) (GoldHash.init (pairTraits A.idBits B.idBits))
    (m1 + m2)).bind (fun pmap =>
      ((pairs A.idBits B.idBits).insert pmap (r1, r2)).bind (fun r =>
        (explore P (pairs A.idBits B.idBits) (pairSucc O A B) (pairFinal O A B) id
          (fun t => 2 * GoldHash.Tab.size t) powerLimit ((A.states + 1) * (B.states + 1) + 1) 0
            (r.1, Store.init P)).map Prod.snd))

/-- `dfa_union` -/
def dfaUnion (A : Src) (r1 m1 : Nat) (B : Src) (r2 m2 powerLimit : Nat) : Option Store :=
  product P union A r1 m1 B r2 m2 powerLimit

/-- `dfa_intersection`, which then removes the dead states. -/
def dfaIntersection (A : Src) (r1 m1 : Nat) (B : Src) (r2 m2 powerLimit : Nat) : Option Store :=
  (product P intersection A r1 m1 B r2 m2 powerLimit).bind (DeadStates.removeDeadStates P)

/-- `dfa_difference`, which then removes the dead states. -/
def dfaDifference (A : Src) (r1 m1 : Nat) (B : Src) (r2 m2 powerLimit : Nat) : Option Store :=
  (product P difference A r1 m1 B r2 m2 powerLimit).bind (DeadStates.removeDeadStates P)

/-! ## A list of roots -/

/-- `next_sets.bykey(ch).push_back(child)`; letters stand in the order of their first use. -/
def pushChild : List (Nat × List Nat) → Nat → Nat → List (Nat × List Nat)
  | [], ch, child => [(ch, [child])]
  | s :: sets, ch, child =>
    if s.1 = ch then (ch, s.2 ++ [child]) :: sets else s :: pushChild sets ch child

/-- `next_sets` of a subset; `w` is the width of `SrcID`. -/
def nextSets (A : Src) (w : Nat) (subset : List Nat) : List (Nat × List Nat) :=
  (subset.flatMap A.moves).foldl (fun sets m => pushChild sets m.1 (m.2 % 2 ^ w)) []

/-- `std::sort` and `std::unique`. -/
def sortUniq (ss : List Nat) : List Nat := (ss.insertionSort (· ≤ ·)).dedup

/-- The transitions of a subset; for the intersection only letters that all states have. -/
def subsetSucc (all : Bool) (A : Src) (w : Nat) (subset : List Nat) : List (Nat × List Nat) :=
  (nextSets A w subset).filterMap (fun s =>
    if all && s.2.length != subset.length then none else some (s.1, sortUniq s.2))

/-- A subset is final if all, or some, of its states are. -/
def subsetFinal (all : Bool) (A : Src) (subset : List Nat) : Bool :=
  if all then subset.all A.term else subset.any A.term

/-- `std::sort` by letter. -/
def sortMoves (l : List (Nat × Nat)) : List (Nat × Nat) := l.insertionSort (fun a b => a.1 ≤ b.1)

/-- The common part; `hint` is the number of states the table is made for. -/
def powerset (all : Bool) (A : Src) (w : Nat) (roots : List Nat) (hint powerLimit : Nat) :
    Option Store :=
  (SubSetMap.SubSetHashMap.new w hint).bind (fun pmap =>
    (pmap.findOrAddSubset w roots).bind (fun r =>
      (explore P (SubSetMap.subsets w) (subsetSucc all A w) (subsetFinal all A) sortMoves
        (fun t => t.data.length) powerLimit (2 ^ A.states + 2) 0 (r.1, Store.init P)).map Prod.snd))

/-- `dfa_union_n` -/
def dfaUnionN (A : Src) (w : Nat) (roots : List Nat) (powerLimit : Nat) : Option Store :=
  powerset P false A w roots A.states powerLimit

/-- `dfa_intersection_n` -/
def dfaIntersectionN (A : Src) (w : Nat) (roots : List Nat) (powerLimit : Nat) : Option Store :=
  powerset P true A w roots (Store.init P).totalStates powerLimit

end DfaSetOp
