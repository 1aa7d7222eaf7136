import ToplingArk.MemoryProofs
import ToplingArk.SkipListProofs

/-! # MemPool_LockNone — blocks under offsets

    Blocks are ranges of one array of bytes.  A free block of up to `maxBlockSize` bytes is on
    the list of its size, linked through its first bytes; larger ones are in a skip list,
    whose nodes are the blocks themselves.  Links are offsets divided by the alignment, in
    32 bits for an alignment of 4.  `none` is an access out of range.  The counters of free
    blocks and bytes are left out, since nothing is decided by them. -/

namespace MemPool

open LittleEndian Memory List Option Nat

/-- `AlignSize` and `maxBlockSize` with what the class asserts, and the results of
    `random_level`, any. -/
structure Config where
  logAlign : Nat
  maxBlockSize : Nat
  level : Nat → Nat
  align_ge : 2 ≤ logAlign
  align_le : logAlign ≤ 30
  max_ge : 9 * (if logAlign = 2 then 4 else 8) ≤ maxBlockSize
  max_le : maxBlockSize + 2 ^ logAlign ≤ 2 ^ 64

variable (C : Config) {pos m : Nat} {r : Option Nat} {u : Nat → Option Nat}

/-- `align_size` -/
def Config.alignSize : Nat := 2 ^ C.logAlign

/-- `sizeof(link_size_t)`. -/
def Config.linkBytes : Nat := if C.logAlign = 2 then 4 else 8

/-- `offset_shift` -/
def Config.offsetShift : Nat := if C.logAlign = 2 then 2 else 0

/-- `list_tail` -/
def Config.listTail : Nat := 256 ^ C.linkBytes - 1

/-- `sizeof(huge_link_t)`: the size and eight links. -/
def Config.nodeBytes : Nat := 9 * C.linkBytes

/-- `align_up`, in `size_t`. -/
def alignUp (len : Nat) : Nat :=
  (len + C.alignSize - 1) % 2 ^ 64 - (len + C.alignSize - 1) % 2 ^ 64 % C.alignSize

/-- How many sizes have a free list of their own. -/
def Config.freeListLen : Nat := alignUp C C.maxBlockSize / C.alignSize

/-- The pool: its bytes, free lists and skip list. -/
structure Pool where
  mem : Nat → Byte
  n : Nat
  freeList : List Nat
  hugeSize : Nat
  hugeNext : List Nat
  rands : Nat

/-- The constructor, over memory with any content. -/
def new (mem : Nat → Byte) : Pool where
  mem := mem
  n := 0
  freeList := replicate C.freeListLen C.listTail
  hugeSize := 0
  hugeNext := replicate 8 C.listTail
  rands := 0

/-- The offset of a link, `none` for `list_tail`. -/
def follow (link : Nat) : Option Nat :=
  if link = C.listTail then none else some (link * 2 ^ C.offsetShift)

/-- The link to an offset, cut to its type. -/
def linkTo (pos : Nat) : Nat := pos / 2 ^ C.offsetShift % 256 ^ C.linkBytes

variable (p : Pool)

/-- `at<link_t>`. -/
def readLink (pos : Nat) : Option Nat :=
  if pos + C.linkBytes ≤ p.n then some (load p.mem pos C.linkBytes) else none

/-- `next[k]` of the head of the skip list or of a node. -/
def rawNext (r : Option Nat) (k : Nat) : Option Nat :=
  match r with
  | none => p.hugeNext[k]?
  | some q =>
    if q + C.nodeBytes ≤ p.n then some (load p.mem (q + C.linkBytes * (k + 1)) C.linkBytes)
    else none

/-- A link of the head or of a node is written. -/
def setNext (r : Option Nat) (k link : Nat) : Option Pool :=
  match r with
  | none =>
    if k < p.hugeNext.length then some { p with hugeNext := p.hugeNext.set k link } else none
  | some q =>
    if q + C.nodeBytes ≤ p.n then
      some { p with mem := store p.mem (q + C.linkBytes * (k + 1)) (bytes C.linkBytes link) }
    else none

/-- A link is followed. -/
def next (r : Option Nat) (k : Nat) : Option (Option Nat) :=
  (rawNext C p r k).map (follow C)

/-- The size in a huge node. -/
def nodeSize (q : Nat) : Option Nat :=
  if q + C.nodeBytes ≤ p.n then some (load p.mem q C.linkBytes) else none

/-- The way through the skip list to the first node of at least `len` bytes. -/
def findHuge (len : Nat) : Option (List (Option Nat) × Option Nat) :=
  SkipList.search (next C p) (fun q => (nodeSize C p q).map (fun size => decide (size < len)))
    (p.n + 1) p.hugeSize none none []

/-- A new node on level `k`. -/
def linkLevel (pos : Nat) (update : List (Option Nat)) (p : Pool) (k : Nat) : Option Pool :=
  update[k]?.bind (fun r =>
    (rawNext C p r k).bind (fun link =>
      (setNext C p (some pos) k link).bind (fun p => setNext C p r k (linkTo C pos))))

/-- A new node on the levels from `k` down. -/
def linkLevels (pos : Nat) (update : List (Option Nat)) : Nat → Pool → Option Pool
  | 0, p => linkLevel C pos update p 0
  | k + 1, p => (linkLevel C pos update p (k + 1)).bind (linkLevels pos update k)

/-- The part of `sfree` for huge blocks. -/
def freeHuge (pos len : Nat) : Option Pool :=
  (findHuge C p len).bind (fun r =>
    (if p.hugeSize ≤ C.level p.rands % 8 then
      linkLevels C pos (r.1 ++ [none]) p.hugeSize
        { p with hugeSize := p.hugeSize + 1, rands := p.rands + 1 }
    else linkLevels C pos r.1 (C.level p.rands % 8) { p with rands := p.rands + 1 }).bind (fun p =>
      if pos + C.nodeBytes ≤ p.n then
        some { p with mem := store p.mem pos (bytes C.linkBytes len) }
      else none))

/-- The list for blocks of `len` bytes. -/
def listIndex (len : Nat) : Nat := (len / C.alignSize + 2 ^ 64 - 1) % 2 ^ 64

/-- `sfree` -/
def sfree (pos len0 : Nat) : Option Pool :=
  let len := alignUp C len0
  if (pos + len) % 2 ^ 64 = p.n then some { p with n := pos }
  else if len ≤ C.freeListLen * C.alignSize then
    p.freeList[listIndex C len]?.bind (fun head =>
      if pos + C.linkBytes ≤ p.n then
        some { p with mem := store p.mem pos (bytes C.linkBytes head)
                      freeList := p.freeList.set (listIndex C len) (linkTo C pos) }
      else none)
  else freeHuge C p pos len

/-- At the end of the pool; `ensure_capacity` always succeeds. -/
def extend (request : Nat) : Pool × Nat :=
  ({ p with n := (p.n + request) % 2 ^ 64 }, p.n)

/-- A node is taken out of the levels below `m` where it is linked. -/
def unlinkLevels (q : Nat) (update : List (Option Nat)) (p : Pool) : Nat → Option Pool
  | 0 => some p
  | m + 1 => (unlinkLevels q update p m).bind (fun p =>
    update[m]?.bind (fun r =>
      (rawNext C p r m).bind (fun link =>
        if link = q / 2 ^ C.offsetShift then
          (rawNext C p (some q) m).bind (fun link' => setNext C p r m link')
        else some p)))

/-- The height of the skip list without its empty levels. -/
def trimSize (hugeNext : List Nat) : Nat → Nat
  | 0 => 0
  | m + 1 => if hugeNext[m]? = some C.listTail then trimSize hugeNext m else m + 1

/-- The part of `alloc` that takes a huge block; the rest of the block is free again. -/
def takeHuge (q : Nat) (update : List (Option Nat)) (size request : Nat) : Option (Pool × Nat) :=
  (unlinkLevels C q update p p.hugeSize).bind (fun p =>
    let p := { p with hugeSize := trimSize C p.hugeNext p.hugeSize }
    if size - request ≠ 0 then (sfree C p (q + request) (size - request)).map (fun p => (p, q))
    else some (p, q))

/-- The huge block that is large enough, with the way to it and its size. -/
def hugeFit (request : Nat) : Option (List (Option Nat) × Option (Nat × Nat)) :=
  (findHuge C p request).bind (fun r =>
    match r.2 with
    | none => some (r.1, none)
    | some q => (nodeSize C p q).map (fun size =>
      (r.1, if request ≤ size then some (q, size) else none)))

/-- `alloc` -/
def alloc (request0 : Nat) : Option (Pool × Nat) :=
  let request := alignUp C request0
  if request ≤ C.freeListLen * C.alignSize then
    p.freeList[listIndex C request]?.bind (fun head =>
      match follow C head with
      | some pos => (readLink C p pos).map (fun link =>
        ({ p with freeList := p.freeList.set (listIndex C request) link }, pos))
      | none => some (extend p request))
  else
    (hugeFit C p request).bind (fun r =>
      match r.2 with
      | some (q, size) => takeHuge C p q r.1 size request
      | none => some (extend p request))

/-- `alloc3`: in place at the end of the pool, or moved. -/
def alloc3 (pos oldlen0 newlen0 : Nat) : Option (Pool × Nat) :=
  let newlen := alignUp C newlen0
  let oldlen := alignUp C oldlen0
  if (pos + oldlen) % 2 ^ 64 = p.n then some ({ p with n := (pos + newlen) % 2 ^ 64 }, pos)
  else if newlen < oldlen then
    (sfree C p (pos + newlen) (oldlen - newlen)).map (fun p => (p, pos))
  else if newlen = oldlen then some (p, pos)
  else
    (alloc C p newlen).bind (fun r =>
      if r.2 + oldlen ≤ r.1.n ∧ pos + oldlen ≤ r.1.n then
        (sfree C { r.1 with mem := memcpy r.1.mem r.2 pos (min oldlen newlen) } pos oldlen).map
          (fun p => (p, r.2))
      else none)

/-! ## Links -/

variable {C}

/-- Links of 4 bytes in units of 4, or of 8 bytes. -/
theorem linkBytes_cases : (C.linkBytes = 4 ∧ C.offsetShift = 2 ∧ C.logAlign = 2) ∨
    (C.linkBytes = 8 ∧ C.offsetShift = 0 ∧ 3 ≤ C.logAlign) := by
  have := C.align_ge
  unfold Config.linkBytes Config.offsetShift
  by_cases h : C.logAlign = 2
  · rw [if_pos h, if_pos h]
    exact .inl ⟨rfl, rfl, h⟩
  · rw [if_neg h, if_neg h]
    exact .inr ⟨rfl, rfl, by omega⟩

/-- The largest pool whose offsets have links. -/
def Config.limit (C : Config) : Nat := C.listTail * 2 ^ C.offsetShift

theorem limit_lt : C.limit < 2 ^ 64 := by
  unfold Config.limit Config.listTail
  rcases linkBytes_cases (C := C) with ⟨h1, h2, -⟩ | ⟨h1, h2, -⟩
  · rw [h1, h2]
    decide
  · rw [h1, h2]
    decide

theorem linkBytes_le : C.linkBytes ≤ C.alignSize := by
  unfold Config.alignSize
  rcases linkBytes_cases (C := C) with ⟨h1, -, h3⟩ | ⟨h1, -, h3⟩
  · rw [h1, h3]
    decide
  · rw [h1]
    exact Nat.pow_le_pow_right (n := 2) (by decide) h3

theorem alignSize_pos : 0 < C.alignSize := Nat.two_pow_pos _

/-- The links of different offsets below the limit are different. -/
theorem follow_linkTo (hdvd : C.alignSize ∣ pos) (hlt : pos < C.limit) :
    follow C (linkTo C pos) = some pos ∧ linkTo C pos = pos / 2 ^ C.offsetShift ∧
      linkTo C pos < 256 ^ C.linkBytes := by
  unfold follow linkTo
  unfold Config.limit Config.listTail at *
  have hshift : 2 ^ C.offsetShift ∣ pos := by
    refine dvd_trans ?_ hdvd
    refine pow_dvd_pow 2 ?_
    rcases linkBytes_cases (C := C) with ⟨-, h2, h3⟩ | ⟨-, h2, -⟩ <;> omega
  have hdiv : pos / 2 ^ C.offsetShift < 256 ^ C.linkBytes - 1 :=
    Nat.div_lt_of_lt_mul (by rw [mul_comm]; exact hlt)
  have hfits : pos / 2 ^ C.offsetShift < 256 ^ C.linkBytes :=
    hdiv.trans_le (sub_le _ _)
  rw [mod_eq_of_lt hfits, if_neg hdiv.ne, Nat.div_mul_cancel hshift]
  exact ⟨rfl, rfl, hfits⟩

variable {k len : Nat} {update : List (Option Nat)}

/-- Rounding up reaches the next multiple. -/
theorem alignUp_eq (h : len + C.alignSize ≤ 2 ^ 64) :
    C.alignSize ∣ alignUp C len ∧ len ≤ alignUp C len ∧ alignUp C len < len + C.alignSize := by
  have hpos := alignSize_pos (C := C)
  unfold alignUp
  rw [mod_eq_of_lt (show len + C.alignSize - 1 < 2 ^ 64 by omega)]
  have hmod := mod_lt (len + C.alignSize - 1) hpos
  exact ⟨dvd_sub_mod _, by omega, by omega⟩

/-- Behind a multiple of the alignment there is room for another one. -/
theorem round_of_dvd (hdvd : C.alignSize ∣ len) (hlt : len < 2 ^ 64) :
    len + C.alignSize ≤ 2 ^ 64 := by
  have hpow : C.alignSize ∣ 2 ^ 64 := pow_dvd_pow 2 (C.align_le.trans (by decide))
  obtain ⟨c, rfl⟩ := hdvd
  obtain ⟨d, hd⟩ := hpow
  rw [hd] at hlt ⊢
  calc C.alignSize * c + C.alignSize = C.alignSize * (c + 1) := (mul_succ _ _).symm
    _ ≤ C.alignSize * d := mul_le_mul_left _ (Nat.lt_of_mul_lt_mul_left hlt)

theorem alignUp_of_dvd (hdvd : C.alignSize ∣ len) (h : len + C.alignSize ≤ 2 ^ 64) :
    alignUp C len = len := by
  obtain ⟨hd, hle, hlt⟩ := alignUp_eq h
  obtain ⟨a, ha⟩ := hd
  obtain ⟨b, hb⟩ := hdvd
  have hab : a = b := by
    rw [ha] at hle hlt
    rw [hb] at hle hlt
    have h1 := le_of_mul_le_mul_left hle alignSize_pos
    have h2 : a < b + 1 := by
      refine Nat.lt_of_mul_lt_mul_left (a := C.alignSize) ?_
      exact hlt
    omega
  rw [ha, hb, hab]

/-! ## Nodes of the skip list -/

/-- The nodes lie in the pool, apart from each other. -/
structure Nodes (C : Config) (p : Pool) (N : List Nat) : Prop where
  inside : ∀ q ∈ N, q + C.nodeBytes ≤ p.n
  apart : ∀ q ∈ N, ∀ q' ∈ N, q = q' ∨ q + C.nodeBytes ≤ q' ∨ q' + C.nodeBytes ≤ q
  levels : p.hugeNext.length = 8
  links : ∀ v ∈ p.hugeNext, v < 256 ^ C.linkBytes

/-- The head of the skip list or one of the nodes. -/
def Ref (N : List Nat) (r : Option Nat) : Prop := ∀ q, r = some q → q ∈ N

/-- Only links of the head and of the nodes have changed. -/
structure Edited (C : Config) (N : List Nat) (p p' : Pool) : Prop where
  n : p'.n = p.n
  freeList : p'.freeList = p.freeList
  hugeSize : p'.hugeSize = p.hugeSize
  levels : p'.hugeNext.length = p.hugeNext.length
  links : (∀ v ∈ p.hugeNext, v < 256 ^ C.linkBytes) → ∀ v ∈ p'.hugeNext, v < 256 ^ C.linkBytes
  sizes : ∀ q ∈ N, nodeSize C p' q = nodeSize C p q
  mem : ∀ i, (∀ q ∈ N, i < q ∨ q + C.nodeBytes ≤ i) → p'.mem i = p.mem i

variable {N : List Nat} {p p' p'' : Pool}

theorem Edited.refl (p : Pool) : Edited C N p p where
  n := rfl
  freeList := rfl
  hugeSize := rfl
  levels := rfl
  links := fun h => h
  sizes := fun _ _ => rfl
  mem := fun _ _ => rfl

/-- Editing twice is editing. -/
theorem Edited.trans (h : Edited C N p p') (h' : Edited C N p' p'') : Edited C N p p'' where
  n := h'.n.trans h.n
  freeList := h'.freeList.trans h.freeList
  hugeSize := h'.hugeSize.trans h.hugeSize
  levels := h'.levels.trans h.levels
  links := fun hv => h'.links (h.links hv)
  sizes := fun q hq => (h'.sizes q hq).trans (h.sizes q hq)
  mem := fun i hi => (h'.mem i hi).trans (h.mem i hi)

/-- Editing links keeps the nodes. -/
theorem Nodes.edited (hN : Nodes C p N) (h : Edited C N p p') : Nodes C p' N where
  inside := fun q hq => by
    rw [h.n]
    exact hN.inside q hq
  apart := hN.apart
  levels := h.levels.trans hN.levels
  links := h.links hN.links

/-- Every link of a node can be read. -/
theorem Nodes.rawNext_eq (hN : Nodes C p N) (hr : Ref N r) (hk : k < 8) :
    ∃ link, rawNext C p r k = some link ∧ link < 256 ^ C.linkBytes := by
  cases r with
  | none =>
    have hlt : k < p.hugeNext.length := by
      rw [hN.levels]
      exact hk
    exact ⟨p.hugeNext[k], getElem?_eq_getElem hlt, hN.links _ (getElem_mem hlt)⟩
  | some q => exact ⟨_, if_pos (hN.inside q (hr q rfl)), load_lt _ _ _⟩

/-- The links of a node lie behind its size, in the node. -/
theorem field_le (hk : k < 8) : C.linkBytes ≤ C.linkBytes * (k + 1) ∧
    C.linkBytes * (k + 1) + C.linkBytes ≤ C.nodeBytes := by
  refine ⟨Nat.le_mul_of_pos_right _ (succ_pos k), ?_⟩
  unfold Config.nodeBytes
  rw [← mul_succ, mul_comm 9]
  exact mul_le_mul_left _ (by omega)

/-- **SET_NEXT** changes one link. -/
theorem setNext_spec (hN : Nodes C p N) (hr : Ref N r) {link : Nat} (hk : k < 8)
    (hlink : link < 256 ^ C.linkBytes) :
    ∃ p', setNext C p r k link = some p' ∧ Edited C N p p' ∧ rawNext C p' r k = some link ∧
      ∀ r' k', Ref N r' → k' < 8 → (r' ≠ r ∨ k' ≠ k) → rawNext C p' r' k' = rawNext C p r' k' := by
  cases r with
  | none =>
    have hlt : k < p.hugeNext.length := by
      rw [hN.levels]
      exact hk
    refine ⟨{ p with hugeNext := p.hugeNext.set k link }, if_pos hlt,
      { n := rfl, freeList := rfl, hugeSize := rfl, levels := length_set,
        links := ?_, sizes := fun _ _ => rfl, mem := fun _ _ => rfl },
      getElem?_set_self hlt, ?_⟩
    · intro hv v hmem
      rcases mem_or_eq_of_mem_set hmem with hold | rfl
      · exact hv v hold
      · exact hlink
    intro r' k' _ _ hne
    cases r' with
    | none =>
      have hkk : k ≠ k' := by
        rcases hne with hne | hne
        · exact absurd rfl hne
        · exact Ne.symm hne
      exact getElem?_set_ne hkk
    | some q' => rfl
  | some q =>
    have hq : q ∈ N := hr q rfl
    have hin := hN.inside q hq
    have hfk := field_le (C := C) hk
    refine ⟨_, if_pos hin, { n := rfl, freeList := rfl, hugeSize := rfl, levels := rfl,
                             links := fun hv => hv, sizes := ?_, mem := ?_ }, ?_, ?_⟩
    · intro q' hq'
      unfold nodeSize
      have hin' := hN.inside q' hq'
      rw [if_pos hin', if_pos hin', load_store_ne]
      -- sizes lie in front of the links of their node
      rcases hN.apart q hq q' hq' with rfl | h1 | h2
      · omega
      · omega
      · omega
    · intro i hi
      refine store_outside ?_
      rw [bytes_length]
      rcases hi q hq with h1 | h2
      · omega
      · omega
    · unfold rawNext
      dsimp only
      rw [if_pos hin, load_store, mod_eq_of_lt hlink]
    intro r' k' hr' hk' hne
    cases r' with
    | none => rfl
    | some q' =>
      have hin' := hN.inside q' (hr' q' rfl)
      have hfk' := field_le (C := C) hk'
      unfold rawNext
      dsimp only
      rw [if_pos hin', if_pos hin', load_store_ne]
      rcases hN.apart q hq q' (hr' q' rfl) with rfl | h1 | h2
      -- two links of one node lie apart, below or above
      · have hkk : k' ≠ k := hne.resolve_left (fun hn => hn rfl)
        rcases lt_or_gt_of_ne hkk with hlt | hgt
        · have : C.linkBytes * (k' + 1) + C.linkBytes ≤ C.linkBytes * (k + 1) := by
            rw [← mul_succ]
            exact mul_le_mul_left _ (by omega)
          omega
        · have : C.linkBytes * (k + 1) + C.linkBytes ≤ C.linkBytes * (k' + 1) := by
            rw [← mul_succ]
            exact mul_le_mul_left _ (by omega)
          omega
      · omega
      · omega

/-- A size is written into its node only. -/
theorem storeSize_spec (hN : Nodes C p N) (hpos : pos ∈ N) (l : Nat)
    (hp' : p' = { p with mem := store p.mem pos (bytes C.linkBytes l) }) :
    (∀ r k, Ref N r → k < 8 → rawNext C p' r k = rawNext C p r k) ∧
      nodeSize C p' pos = some (l % 256 ^ C.linkBytes) ∧
      (∀ q ∈ N, q ≠ pos → nodeSize C p' q = nodeSize C p q) ∧
      ∀ i, (i < pos ∨ pos + C.nodeBytes ≤ i) → p'.mem i = p.mem i := by
  have hW : C.linkBytes ≤ C.nodeBytes := Nat.le_mul_of_pos_left _ (by decide)
  subst hp'
  refine ⟨?_, ?_, ?_, ?_⟩
  · intro r k hr hk
    cases r with
    | none => rfl
    | some q =>
      have hin := hN.inside q (hr q rfl)
      have hfk := field_le (C := C) hk
      unfold rawNext
      dsimp only
      rw [if_pos hin, if_pos hin, load_store_ne]
      rcases hN.apart pos hpos q (hr q rfl) with rfl | h1 | h2
      · omega
      · omega
      · omega
  · unfold nodeSize
    rw [if_pos (hN.inside pos hpos), load_store]
  · intro q hq hne
    have hin := hN.inside q hq
    unfold nodeSize
    rw [if_pos hin, if_pos hin, load_store_ne]
    rcases hN.apart pos hpos q hq with rfl | h1 | h2
    · exact absurd rfl hne
    · omega
    · omega
  · intro i hi
    refine store_outside ?_
    rw [bytes_length]
    omega

theorem linkTo_lt (pos : Nat) : linkTo C pos < 256 ^ C.linkBytes :=
  mod_lt _ (Nat.pow_pos (by decide))

/-- One level of a node is linked in. -/
theorem linkLevel_spec (hN : Nodes C p N) (hpos : pos ∈ N) (hk : k < 8) {u : Option Nat}
    (hu : update[k]? = some u) (hr : Ref N u) (hne : u ≠ some pos) :
    ∃ p', linkLevel C pos update p k = some p' ∧ Edited C N p p' ∧
      rawNext C p' u k = some (linkTo C pos) ∧ rawNext C p' (some pos) k = rawNext C p u k ∧
      ∀ r k', Ref N r → k' < 8 → (k' ≠ k ∨ (r ≠ u ∧ r ≠ some pos)) →
        rawNext C p' r k' = rawNext C p r k' := by
  have hrpos : Ref N (some pos) := by
    intro q hq
    rw [← some.inj hq]
    exact hpos
  obtain ⟨link, hlink, hlt⟩ := hN.rawNext_eq hr hk
  obtain ⟨p1, hset1, hed1, hval1, hsame1⟩ := setNext_spec hN hrpos hk hlt
  obtain ⟨p2, hset2, hed2, hval2, hsame2⟩ :=
    setNext_spec (hN.edited hed1) hr hk (linkTo_lt (C := C) pos)
  refine ⟨p2, ?_, hed1.trans hed2, hval2, ?_, ?_⟩
  · unfold linkLevel
    rw [hu, bind_some, hlink, bind_some, hset1, bind_some, hset2]
  · rw [hsame2 _ _ hrpos hk (.inl (Ne.symm hne)), hval1, hlink]
  intro r k' hr' hk' hor
  have h1 : r ≠ u ∨ k' ≠ k := by
    rcases hor with hkk | ⟨hru, -⟩
    · exact .inr hkk
    · exact .inl hru
  have h2 : r ≠ some pos ∨ k' ≠ k := by
    rcases hor with hkk | ⟨-, hrp⟩
    · exact .inr hkk
    · exact .inl hrp
  rw [hsame2 r k' hr' hk' h1, hsame1 r k' hr' hk' h2]

/-- **LINKING**: a new node on the levels up to `m`. -/
theorem linkLevels_spec (hN : Nodes C p N) (hpos : pos ∈ N) (hm : m < 8)
    (hu : ∀ k, k ≤ m → update[k]? = some (u k) ∧ Ref N (u k) ∧ u k ≠ some pos) :
    ∃ p', linkLevels C pos update m p = some p' ∧ Edited C N p p' ∧
      (∀ k, k ≤ m → rawNext C p' (u k) k = some (linkTo C pos) ∧
        rawNext C p' (some pos) k = rawNext C p (u k) k) ∧
      ∀ r k, Ref N r → k < 8 → (m < k ∨ (r ≠ u k ∧ r ≠ some pos)) →
        rawNext C p' r k = rawNext C p r k := by
  induction m generalizing p with
  | zero =>
    obtain ⟨hget, hr, hne⟩ := hu 0 le_rfl
    obtain ⟨p', hrun, hed, hnew, hpos', hsame⟩ := linkLevel_spec hN hpos hm hget hr hne
    refine ⟨p', hrun, hed, ?_, ?_⟩
    · intro k hk
      obtain rfl := le_zero.mp hk
      exact ⟨hnew, hpos'⟩
    · intro r k hr' hk hor
      refine hsame r k hr' hk ?_
      by_cases hzero : k = 0
      · subst hzero
        exact .inr (hor.resolve_left (lt_irrefl 0))
      · exact .inl hzero
  | succ m ih =>
    obtain ⟨hget, hr, hne⟩ := hu (m + 1) le_rfl
    obtain ⟨p1, hrun1, hed1, hnew1, hpos1, hsame1⟩ := linkLevel_spec hN hpos hm hget hr hne
    -- the top level first, which the lower ones do not touch
    obtain ⟨p', hrun, hed, hlinked, hsame⟩ := ih (hN.edited hed1) (lt_of_succ_lt hm)
      (fun k hk => hu k (le_succ_of_le hk))
    have hrpos : Ref N (some pos) := by
      intro q hq
      rw [← some.inj hq]
      exact hpos
    refine ⟨p', ?_, hed1.trans hed, ?_, ?_⟩
    · show (linkLevel C pos update p (m + 1)).bind _ = _
      rw [hrun1]
      exact hrun
    · intro k hk
      rcases le_succ_iff.mp hk with hle | rfl
      · obtain ⟨h1, h2⟩ := hlinked k hle
        refine ⟨h1, h2.trans ?_⟩
        exact hsame1 _ k (hu k hk).2.1 (by omega) (.inl (by omega))
      · rw [hsame _ _ hr hm (.inl (lt_succ_self m)), hsame _ _ hrpos hm (.inl (lt_succ_self m))]
        exact ⟨hnew1, hpos1⟩
    intro r k hr' hk hor
    have hfirst : rawNext C p1 r k = rawNext C p r k := by
      refine hsame1 r k hr' hk ?_
      by_cases hkm : k = m + 1
      · subst hkm
        exact .inr (hor.resolve_left (lt_irrefl _))
      · exact .inl hkm
    rw [hsame r k hr' hk (hor.imp_left lt_of_succ_lt), hfirst]

/-- **UNLINKING**: a node is passed over on the levels below `m` where it is next. -/
theorem unlinkLevels_spec (hN : Nodes C p N) {q : Nat} (hq : q ∈ N) (hm : m ≤ 8)
    (hu : ∀ k, k < m → update[k]? = some (u k) ∧ Ref N (u k) ∧ u k ≠ some q) :
    ∃ p', unlinkLevels C q update p m = some p' ∧ Edited C N p p' ∧
      ∀ r k, Ref N r → k < 8 → rawNext C p' r k =
        if k < m ∧ r = u k ∧ rawNext C p (u k) k = some (q / 2 ^ C.offsetShift)
        then rawNext C p (some q) k else rawNext C p r k := by
  have hrq : Ref N (some q) := by
    intro x hx
    rw [← some.inj hx]
    exact hq
  induction m with
  | zero =>
    refine ⟨p, rfl, Edited.refl p, fun r k _ _ => ?_⟩
    rw [if_neg (fun hh => absurd hh.1 (not_lt_zero k))]
  | succ m ih =>
    obtain ⟨p1, hrun1, hed1, hval1⟩ := ih (le_of_succ_le hm)
      (fun k hk => hu k (lt_succ_of_lt hk))
    obtain ⟨hget, hr, hne⟩ := hu m (lt_succ_self m)
    have hN1 := hN.edited hed1
    obtain ⟨link, hlink, hlt⟩ := hN1.rawNext_eq hr hm
    have hold : rawNext C p1 (u m) m = rawNext C p (u m) m := by
      rw [hval1 _ _ hr hm, if_neg (fun hh => absurd hh.1 (lt_irrefl m))]
    have holdq : rawNext C p1 (some q) m = rawNext C p (some q) m := by
      rw [hval1 _ _ hrq hm, if_neg (fun hh => absurd hh.1 (lt_irrefl m))]
    -- the loop goes over the lower levels first
    have hstep : unlinkLevels C q update p (m + 1) =
        if link = q / 2 ^ C.offsetShift then
          (rawNext C p1 (some q) m).bind (fun link' => setNext C p1 (u m) m link')
        else some p1 := by
      show (unlinkLevels C q update p m).bind _ = _
      rw [hrun1, bind_some, hget, bind_some, hlink, bind_some]
    -- a level in which the node is not linked stays as it is
    by_cases hnext : link = q / 2 ^ C.offsetShift
    · obtain ⟨link', hlink', hlt'⟩ := hN1.rawNext_eq hrq hm
      obtain ⟨p2, hset, hed2, hnew, hsame⟩ := setNext_spec hN1 hr hm hlt'
      refine ⟨p2, ?_, hed1.trans hed2, ?_⟩
      · rw [hstep, if_pos hnext, hlink', bind_some, hset]
      intro r k hr' hk
      by_cases hat : r = u m ∧ k = m
      · obtain ⟨rfl, rfl⟩ := hat
        rw [hnew, if_pos ⟨lt_succ_self k, rfl, by rw [← hold, hlink, hnext]⟩, ← holdq, hlink']
      have hor : r ≠ u m ∨ k ≠ m := by
        by_contra hno
        rw [not_or, not_not, not_not] at hno
        exact hat hno
      rw [hsame r k hr' hk hor, hval1 r k hr' hk]
      by_cases hkm : k = m
      · subst hkm
        have hru : r ≠ u k := hor.resolve_right (fun hn => hn rfl)
        rw [if_neg (fun hh => hru hh.2.1), if_neg (fun hh => hru hh.2.1)]
      · have hiff : k < m + 1 ↔ k < m := by omega
        simp only [hiff]
    refine ⟨p1, ?_, hed1, ?_⟩
    · rw [hstep, if_neg hnext]
    intro r k hr' hk
    rw [hval1 r k hr' hk]
    by_cases hkm : k = m
    · subst hkm
      rw [if_neg (fun hh => absurd hh.1 (lt_irrefl k)), if_neg]
      rintro ⟨-, -, hcon⟩
      rw [← hold, hlink] at hcon
      exact hnext (some.inj hcon)
    · have hiff : k < m + 1 ↔ k < m := by omega
      simp only [hiff]

end MemPool
