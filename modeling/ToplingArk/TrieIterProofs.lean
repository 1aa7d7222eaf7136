import ToplingArk.PatriciaSearchProofs
import ToplingArk.TrieCharProofs
import ToplingArk.WordCursorProofs
import ToplingArk.ZpathPathProofs

/-! # The iterator of a nested LOUDS trie

    `NestLoudsTrieTpl::Iterator` keeps a word and a stack of entries, one for each state on the
    path to where it stands: the state, its children, the child that is taken, and the length
    of the edge string.  Both have a fixed room, behind the iterator itself.  `incr` and
    `decr` leave the states without another child and then go down again, to the first or
    the last string below a child; the seeks build the stack from the root.

    The stack is listed with its innermost entry first.  A loop counter is `none` at zero;
    what is undefined, `abort()` included, is `none`. -/

namespace NestLouds

open BitCount LevelTree Patricia Zpath WordCursor

/-- `NLT_IterEntry` -/
structure Entry where
  state : Nat
  child0 : Nat
  nChildren : Nat
  nthChild : Nat
  zpathLen : Nat
deriving DecidableEq, Repr

/-- `has_next` -/
def Entry.hasNext (e : Entry) : Bool := decide (e.nthChild + 1 < e.nChildren)

/-- Writing `nth_child`, which has 8 bits. -/
def Entry.setNth (e : Entry) (nth : Nat) : Entry := { e with nthChild := nth % 2 ^ 8 }

/-- `m_word`, the entries from `m_base` to `m_top`, and `m_curr`. -/
structure Iter where
  word : List Nat
  stack : List Entry
  curr : Nat
deriving DecidableEq, Repr

/-- `word_mem`, and the number of entries that `pile_mem` has room for. -/
structure IterRoom where
  wordMem : Nat
  pileMem : Nat

/-- The room of an iterator; `m_max_strlen` has 32 bits. -/
def iterRoom (layers : Layers) (maxStrlen : Nat) : IterRoom where
  wordMem := ((maxStrlen + 16) % 2 ^ 32 + 15) % 2 ^ 32 / 16 * 16
  pileMem := layers.idRank.length + 2

/-- The iterator before any call. -/
def Iter.start : Iter := ⟨[], [], nilState⟩

/-- `reset1` -/
def Iter.reset1 (it : Iter) : Iter := { it with word := [], stack := [] }

namespace Trie

variable (t : Trie) (room : IterRoom)

/-- The width of the state numbers in an entry. -/
def entryBits : Nat := if t.indexBits = 32 then 32 else 48

/-- What `initIterEntry` writes besides the edge string. -/
def newEntry (parent child0 lcount zlen : Nat) : Entry where
  state := parent % 2 ^ t.entryBits
  child0 := child0 % 2 ^ t.entryBits
  nChildren := lcount % 2 ^ 16
  nthChild := 0
  zpathLen := zlen % 2 ^ 8

/-- `initIterEntry`, for the entry behind `depth` others and with `wp` bytes before the edge string:
    the entry and the edge string.  There must be room for the byte that follows. -/
def initIterEntry (parent depth wp : Nat) : Option (Entry × List Nat) := do
  let (child0, lcount) ← t.childRange parent
  let link ← t.isLink[parent]?
  if link then do
    let z ← t.zpathData parent
    -- TERARK_ASSUME(zlen >= 2)
    if 2 ≤ z.length ∧ depth < room.pileMem ∧ wp + z.length + 1 ≤ room.wordMem then
      some (t.newEntry parent child0 lcount z.length, z)
    else none
  else if depth < room.pileMem ∧ wp + 1 ≤ room.wordMem then
    some (t.newEntry parent child0 lcount 0, [])
  else none

/-- `append_lex_min_suffix`: down to the first terminal state. -/
def appendLexMinSuffix : Nat → Nat → List Entry → List Nat → Option Iter
  | 0, _, _, _ => none
  | fuel + 1, curr, stack, word => do
    let (e, z) ← t.initIterEntry room curr stack.length word.length
    let term ← t.isTerm.bits[curr]?
    if term then some ⟨word ++ z, e :: stack, curr⟩
    else if e.nChildren = 0 then none
    else do
      let ch ← t.getFirstChar e.child0 e.nChildren
      appendLexMinSuffix fuel e.child0 (e :: stack) (word ++ z ++ [ch])

/-- `append_lex_max_suffix`: down to the last leaf. -/
def appendLexMaxSuffix : Nat → Nat → List Entry → List Nat → Option Iter
  | 0, _, _, _ => none
  | fuel + 1, curr, stack, word => do
    let (e, z) ← t.initIterEntry room curr stack.length word.length
    if e.nChildren = 0 then some ⟨word ++ z, e :: stack, curr⟩
    else do
      let ch ← t.getNthChar e.child0 e.nChildren (e.nChildren - 1)
      appendLexMaxSuffix fuel (e.child0 + (e.nChildren - 1)) (e.setNth (e.nChildren - 1) :: stack)
        (word ++ z ++ [ch])

/-- No path has more states than the trie. -/
def lexMin (curr : Nat) (stack : List Entry) (word : List Nat) : Option Iter :=
  t.appendLexMinSuffix room t.isTerm.bits.length curr stack word

/-- The last string below a state. -/
def lexMax (curr : Nat) (stack : List Entry) (word : List Nat) : Option Iter :=
  t.appendLexMaxSuffix room t.isTerm.bits.length curr stack word

/-- `seek_end` -/
def seekEnd (it : Iter) : Option (Iter × Bool) :=
  if 0 < t.isLink.length then do
    let it ← t.lexMax room 0 [] []
    some (it, true)
  else some (it.reset1, false)

/-- `RewindStackForNext`: to the next child of the innermost state that has one, or nowhere. -/
def rewindStackForNext : List Entry → List Nat → Option (Option Iter)
  | [], _ => some none
  | e :: stack, word =>
    if e.hasNext then do
      let ch2 ← t.getNthChar e.child0 e.nChildren (e.nthChild + 1)
      -- wp[-1] = ch2
      if word.length = 0 then none
      else do
        let it ← t.lexMin room (e.child0 + (e.nthChild + 1)) (e.setNth (e.nthChild + 1) :: stack)
          (word.take (word.length - 1) ++ [ch2])
        some (some it)
    else if e.zpathLen + 1 ≤ word.length then
      rewindStackForNext stack (word.take (word.length - (e.zpathLen + 1)))
    else none

/-- `CurrMinSuffix`: the first string of the state whose entry is the last one. -/
def currMinSuffix (curr : Nat) (e : Entry) (stack : List Entry) (word : List Nat) :
    Option (Option Iter) := do
  let term ← t.isTerm.bits[curr]?
  if term then some (some ⟨word, e :: stack, curr⟩)
  else if e.nChildren = 0 then some none
  else do
    let ch ← t.getFirstChar e.child0 e.nChildren
    let it ← t.lexMin room e.child0 (e :: stack) (word ++ [ch])
    some (some it)

/-- The loop of `seek_lower_bound`; `rest` is the key from `pos` on. -/
def seekLoop : Nat → Nat → List Entry → List Nat → List Nat → Option (Option Iter)
  | 0, _, _, _, _ => none
  | fuel + 1, curr, stack, word, rest => do
    let (e, z) ← t.initIterEntry room curr stack.length word.length
    match meet z rest with
    | .below => t.currMinSuffix room curr e stack (word ++ z)
    | .short => t.currMinSuffix room curr e stack (word ++ z)
    | .rest [] => t.currMinSuffix room curr e stack (word ++ z)
    | .above => t.rewindStackForNext room stack word
    | .rest (ch :: rest) => do
      let found ← t.searchChild e.child0 e.nChildren ch
      match found with
      | none => t.rewindStackForNext room stack word
      | some (nth, true) =>
        seekLoop fuel (e.child0 + nth) (e.setNth nth :: stack) (word ++ z ++ [ch]) rest
      | some (nth, false) => do
        -- the letter is read as in getNthCharNext
        let ch2 ← t.getNthCharNext e.child0 e.nChildren nth ch
        let it ← t.lexMin room (e.child0 + nth) (e.setNth nth :: stack) (word ++ z ++ [ch2])
        some (some it)

/-- A jump to `reset1()` when nothing was found. -/
def land (it : Iter) : Option Iter → Iter × Bool
  | some it' => (it', true)
  | none => (it.reset1, false)

/-- `seek_lower_bound` -/
def seekLowerBound (it : Iter) (key : List Nat) : Option (Iter × Bool) := do
  let found ← t.seekLoop room (key.length + 1) 0 [] [] key
  some (land it found)

/-- The loop of `incr` over the states without another child: the entry with a next child, the
    entries below it and the place of the letter. -/
def climbNext : List Entry → Nat → Option (Option (Entry × List Entry × Nat))
  | [], _ => none
  | e :: stack, wp =>
    if e.hasNext then some (some (e, stack, wp))
    else if stack.length = 0 then some none
    else if e.zpathLen + 1 ≤ wp then climbNext stack (wp - (e.zpathLen + 1))
    else none

/-- `incr` -/
def incr (it : Iter) : Option (Iter × Bool) :=
  match it.stack with
  | [] => some (it, false)
  | e :: stack =>
    if e.nChildren ≠ 0 then do
      let ch ← t.getFirstChar e.child0 e.nChildren
      let it ← t.lexMin room e.child0 (e :: stack) (it.word ++ [ch])
      some (it, true)
    else do
      let found ← climbNext (e :: stack) it.word.length
      match found with
      | none => some (it.reset1, false)
      | some (e, stack, wp) => do
        let old ← it.word[wp]?
        let ch ← t.getNthCharNext e.child0 e.nChildren (e.nthChild + 1) old
        let it ← t.lexMin room (e.child0 + (e.nthChild + 1)) (e.setNth (e.nthChild + 1) :: stack)
          (it.word.take wp ++ [ch])
        some (it, true)

/-- Where the loop of `decr` ends: outside, at a state that is terminal itself, or at a state with
    a previous child. -/
inductive Back where
  | outside
  | here (e : Entry) (stack : List Entry) (wp : Nat)
  | child (e : Entry) (stack : List Entry) (wp : Nat)

/-- The loop of `decr`. -/
def climbPrev : List Entry → Nat → Option Back
  | [], _ => none
  | e :: stack, wp =>
    if e.nthChild = 0 then do
      let term ← t.isTerm.bits[e.state]?
      if term then some (.here e stack wp)
      else if stack.length = 0 then some .outside
      else if e.zpathLen + 1 ≤ wp then climbPrev stack (wp - (e.zpathLen + 1))
      else none
    else some (.child e stack wp)

/-- What `decr` does where its loop has ended. -/
def decrFrom (it : Iter) : Back → Option (Iter × Bool)
  | .outside => some (it.reset1, false)
  | .here e stack wp => some (⟨it.word.take wp, e :: stack, e.state⟩, true)
  | .child e stack wp => do
    let old ← it.word[wp]?
    let ch ← t.getNthCharPrev e.child0 e.nChildren (e.nthChild - 1) old
    let it ← t.lexMax room (e.child0 + (e.nthChild - 1)) (e.setNth (e.nthChild - 1) :: stack)
      (it.word.take wp ++ [ch])
    some (it, true)

/-- `decr` -/
def decr (it : Iter) : Option (Iter × Bool) :=
  match it.stack with
  | [] => some (it, false)
  | e :: stack =>
    if stack.length = 0 then some (it.reset1, false)
    else if e.zpathLen + 1 ≤ it.word.length then do
      let back ← t.climbPrev stack (it.word.length - (e.zpathLen + 1))
      t.decrFrom room it back
    else none

/-- How far the key and an edge string agree. -/
def agree : List Nat → List Nat → Nat
  | z :: zs, c :: w => if c = z then agree zs w + 1 else 0
  | _, _ => 0

/-- The loop of `seek_max_prefix`; `best` is where the iterator stands at `RestoreLastMatch`, which
    sets `nth_child` of its last entry back to 0. -/
def maxPrefixLoop : Nat → Nat → List Entry → List Nat → List Nat → Iter → Option (Iter × Nat)
  | 0, _, _, _, _, _ => none
  | fuel + 1, curr, stack, word, rest, best => do
    let (e, z) ← t.initIterEntry room curr stack.length word.length
    if agree z rest < z.length then some (best, word.length + agree z rest)
    else do
      let term ← t.isTerm.bits[curr]?
      let best := if term then ⟨word ++ z, e :: stack, curr⟩ else best
      match rest.drop z.length with
      | [] => some (best, (word ++ z).length)
      | ch :: rest => do
        let found ← t.searchChild e.child0 e.nChildren ch
        match found with
        | some (nth, true) =>
          maxPrefixLoop fuel (e.child0 + nth) (e.setNth nth :: stack) (word ++ z ++ [ch]) rest best
        | _ => some (best, (word ++ z).length)

/-- `seek_max_prefix` -/
def seekMaxPrefix (key : List Nat) : Option (Iter × Nat) :=
  t.maxPrefixLoop room (key.length + 1) 0 [] [] key Iter.start

/-- A call, and what it returns. -/
def call (it : Iter) : Call → Option (Iter × Ret)
  | .lowerBound key => (t.seekLowerBound room it key).map (fun r => (r.1, .flag r.2))
  | .last => (t.seekEnd room it).map (fun r => (r.1, .flag r.2))
  | .next => (t.incr room it).map (fun r => (r.1, .flag r.2))
  | .prev => (t.decr room it).map (fun r => (r.1, .flag r.2))
  | .maxPrefix key => (t.seekMaxPrefix room key).map (fun r => (r.1, .length r.2))

end Trie

/-- The word that the iterator stands on, if it stands anywhere. -/
def Iter.stands (it : Iter) : Option (List Nat) := if it.stack = [] then none else some it.word

/-- What the calls of an iterator show. -/
def Trie.watchIter (t : Trie) (room : IterRoom) (calls : List Call) :
    Option (List (Ret × Option (List Nat))) :=
  watch (t.call room) Iter.stands Iter.start calls

end NestLouds
