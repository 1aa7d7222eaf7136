import Mathlib.Data.Set.Card
import ToplingArk.HashChainProofs

/-! # gold_hash_tab — a hash table with stable slots

    The elements stand in slots `0 .. nElem-1`; a second array holds their links, which
    thread the chains of the buckets.  An erased slot keeps its place: its link becomes
    the delete mark and the storage of its dead element becomes a link of the free list.
    Compaction moves the live elements together and rebuilds all chains.

    Slots behind `nElem` are reserved memory that nothing reads; they are not modelled,
    so `nElem` is the length of the arrays.  `none` is a failed check (the process dies),
    a read outside an array or of a dead element, or a walk that does not end. -/

namespace GoldHash

open HashChain List Option Nat

/-! ## Types and constants -/

/-- The unsigned types of a link. -/
inductive LinkTp
  | u8
  | u16
  | u32
  | u64
  deriving DecidableEq, Repr

/-- The width of a link type. -/
def LinkTp.bits : LinkTp → Nat
  | .u8 => 8
  | .u16 => 16
  | .u32 => 32
  | .u64 => 64

/-- `tail` ends a chain. -/
def LinkTp.tail (w : LinkTp) : Nat := 2 ^ w.bits - 1

/-- `delmark` is the link of an erased slot. -/
def LinkTp.delmark (w : LinkTp) : Nat := w.tail - 1

/-- `2*nElem`: a narrow type is promoted, a wide one wraps around. -/
def LinkTp.twice (w : LinkTp) (n : Nat) : Nat :=
  if w.bits < 32 then 2 * n else 2 * n % 2 ^ w.bits

/-- How elements are moved together: byte copies or swaps. -/
inductive CopyStrategy
  | fast
  | safe
  deriving DecidableEq, Repr

/-- The template arguments: the link type, the width of `HashTp`, the copy strategy, the
    hash and equality of keys and the key extractor. -/
structure Traits (Key Elem : Type) where
  link : LinkTp
  hashBits : Nat
  copy : CopyStrategy
  hash : Key → Nat
  equal : Key → Key → Bool
  extract : Elem → Key

variable {Key Elem : Type} (T : Traits Key Elem) {k : Key}

/-- `HashTp(HashEqual::hash(key))`. -/
def Traits.hashTp (k : Key) : Nat := T.hash k % 2 ^ T.hashBits

/-- The hash value of a key fits into `HashTp`. -/
def Traits.Fits (k : Key) : Prop := T.hash k < 2 ^ T.hashBits

/-- The storage of one element: a live element, a link of the free list, or nothing yet. -/
inductive Cell (Elem : Type)
  | elem (e : Elem)
  | next (p : Nat)
  | raw
  deriving DecidableEq, Repr

/-- The element in a cell. -/
def Cell.elem? : Cell Elem → Option Elem
  | .elem e => some e
  | _ => none

/-- The next free slot, in a free cell. -/
def Cell.next? : Cell Elem → Option Nat
  | .next p => some p
  | _ => none

/-- The table.  `bucket` is `[tail]` while it points to the shared constant `tail`. -/
structure Tab (Elem : Type) where
  data : List (Cell Elem)
  link : List Nat
  bucket : List Nat
  maxElem : Nat
  maxload : Nat
  freelistHead : Nat
  freelistSize : Nat
  loadFactor : Nat
  enableAutoGc : Bool
  enableFreelistReuse : Bool
  deriving DecidableEq, Repr

variable (t : Tab Elem) {c : Cell Elem}

/-- `nElem` counts the freed slots too. -/
def Tab.nElem : Nat := t.link.length

/-- `nBucket` -/
def Tab.nBucket : Nat := t.bucket.length

/-- An empty table, with one bucket. -/
def init : Tab Elem where
  data := []
  link := []
  bucket := [T.link.tail]
  maxElem := 0
  maxload := 0
  freelistHead := T.link.tail
  freelistSize := 0
  loadFactor := 179
  enableAutoGc := false
  enableFreelistReuse := true

/-- The element in a slot. -/
def Tab.elemAt (i : Nat) : Option Elem := t.data[i]?.bind Cell.elem?

/-- `size` -/
def Tab.size : Nat := t.nElem - t.freelistSize

/-! ## Bucket sizes -/

/-- The bucket sizes, in 64-bit builds. -/
def primes : List Nat :=
  [5, 11, 19, 37, 53, 97, 193, 389, 769, 1543, 3079, 6151, 12289, 24593, 49157, 98317, 196613,
    393241, 786433, 1572869, 3145739, 6291469, 12582917, 25165843, 50331653, 100663319,
    201326611, 402653189, 805306457, 1610612741, 3221225473, 4294967291, 8589934583,
    17179869143, 34359738337, 68719476731, 137438953447, 274877906899, 549755813881,
    1099511627689, 2199023255531, 4398046511093, 8796093022151, 17592186044399,
    35184372088777, 70368744177643, 140737488355213, 281474976710597, 562949953421231,
    1125899906842597, 2251799813685119, 4503599627370449, 9007199254740881,
    18014398509481951, 36028797018963913, 72057594037927931, 144115188075855859,
    288230376151711717, 576460752303423433, 1152921504606846883, 2305843009213693951,
    4611686018427387847, 9223372036854775783, 18446744073709551557]

/-- `__hsm_stl_next_prime`: the first size that is not smaller, or the last one. -/
def nextPrime (n : Nat) : Nat :=
  (primes.find? (fun p => n ≤ p)).getD 18446744073709551557

theorem nextPrime_ge (n : Nat) : 5 ≤ nextPrime n := by
  unfold nextPrime
  cases h : primes.find? (fun p => n ≤ p) with
  | none => decide
  | some p =>
    have hall : ∀ p ∈ primes, 5 ≤ p := by decide
    exact hall p (mem_of_find?_eq_some h)

/-- No bucket count below what was asked for, up to the greatest prime. -/
theorem nextPrime_ge_self {n : Nat} (hn : n ≤ 18446744073709551557) : n ≤ nextPrime n := by
  unfold nextPrime
  cases h : primes.find? (fun p => n ≤ p) with
  | none => exact hn
  | some p =>
    have hp := find?_some h
    exact of_decide_eq_true hp

/-! ## Chains -/

/-- `relink_impl`, without a hash cache: the hash is not cut down to `HashTp` here. -/
def relink (T : Traits Key Elem) (t : Tab Elem) : Option (Tab Elem) :=
  if t.nBucket > 1 then
    (HashChain.relink
      (fun link j => if t.freelistSize = 0 then some true
        else link[j]?.map (fun p => T.link.delmark != p))
      (fun j => (t.elemAt j).map (fun e => T.hash (T.extract e) % t.nBucket))
      t.nElem t.link (replicate t.nBucket T.link.tail)).map
        (fun s => { t with link := s.1, bucket := s.2 })
  else some t

/-- `rehash`, with the bucket size it ends up with. -/
def rehash (newBucketSize : Nat) : Option (Tab Elem × Nat) :=
  let nb := nextPrime newBucketSize
  if nb ≠ t.nBucket then
    (relink T { t with bucket := replicate nb T.link.tail }).map (fun t =>
      ({ t with maxload := nb * t.loadFactor % 2 ^ 64 / 256 % 2 ^ T.link.bits }, nb))
  else some (t, nb)

/-- `reserve_nodes` dies above the mark of deletion. -/
def reserveNodes (cap : Nat) : Option (Tab Elem) :=
  if cap < t.nElem then none
  else if T.link.delmark < cap then none
  else if cap ≠ t.maxElem ∧ cap ≠ t.nElem then some { t with maxElem := cap }
  else some t

/-- `reserve`: nodes, and buckets for them. -/
def reserve (cap : Nat) : Option (Tab Elem) :=
  (reserveNodes T t cap).bind (fun t =>
    (rehash T t (cap * 256 % 2 ^ 64 / t.loadFactor + 1)).map Prod.fst)

/-- Whether the slot holds the key. -/
def hasKey (k : Key) (i : Nat) : Option Bool :=
  (t.elemAt i).map (fun e => T.equal k (T.extract e))

/-- The walk along the chain of bucket `b`. -/
def seekIn (hit : Nat → Option Bool) (b : Nat) : Option (Option Nat × Nat) :=
  t.bucket[b]?.bind (fun p => seek T.link.tail t.link hit (t.link.length + 1) none p)

/-- `find_with_hash_i` -/
def findWithHashI (k : Key) (h : Nat) : Option Nat :=
  (seekIn T t (hasKey T t k) (h % t.nBucket)).map (fun r =>
    if r.2 = T.link.tail then t.nElem else r.2)

/-- `find_i` -/
def findI (k : Key) : Option Nat :=
  findWithHashI T t k (T.hashTp k)

/-! ## Compaction -/

/-- The cell of slot `j` moved down to slot `i`. -/
def moveDown {α : Type} (copy : CopyStrategy) (i j : Nat) (c : α) (data : List α) : List α :=
  match copy, data[i]? with
  | .safe, some b => (data.set i c).set j b
  | _, _ => data.set i c

/-- The loop that moves the kept cells from `j` on down to `i` on. -/
def compact {α : Type} (copy : CopyStrategy) (drop : Nat → α → Option Bool) :
    Nat → Nat → Nat → List α → Option (List α)
  | 0, i, _, data => some (data.take i)
  | m + 1, i, j, data =>
    data[j]?.bind (fun c => (drop j c).bind (fun d =>
      if d then compact copy drop m i (j + 1) data
      else compact copy drop m (i + 1) (j + 1) (moveDown copy i j c data)))

/-- The search for the first cell to drop, and the compaction behind it; `some none` if
    there is none. -/
def sweep {α : Type} (copy : CopyStrategy) (drop : Nat → α → Option Bool) :
    Nat → Nat → List α → Option (Option (List α))
  | 0, _, _ => some none
  | m + 1, i, data =>
    data[i]?.bind (fun c => (drop i c).bind (fun d =>
      if d then (compact copy drop m i (i + 1) data).map some
      else sweep copy drop m (i + 1) data))

/-- `revoke_deleted_no_relink`, with the number of slots dropped. -/
def revokeDeletedNoRelink : Option (Tab Elem × Nat) :=
  if t.freelistSize = 0 then none
  else (sweep .fast (fun i _ => t.link[i]?.map (fun p => T.link.delmark == p))
      t.nElem 0 t.data).bind (fun kept => kept.map (fun data =>
    ({ t with data := data, link := t.link.take data.length, freelistHead := T.link.tail,
              freelistSize := 0 }, t.nElem - data.length)))

/-- `revoke_deleted`: closes the gaps that freed slots leave. -/
def revokeDeleted : Option (Tab Elem × Nat) :=
  if t.freelistSize ≠ 0 then
    (revokeDeletedNoRelink T t).bind (fun r => (relink T r.1).map (fun t => (t, r.2)))
  else some (t, 0)

/-! ## Inserting and erasing -/

/-- `risk_slot_alloc`: a free slot, or a new one at the end. -/
def riskSlotAlloc : Option (Tab Elem × Nat) :=
  if t.freelistSize = 0 ∨ t.enableFreelistReuse = false then
    (if t.nElem = t.maxElem then
      reserveNodes T t (if t.nElem = 0 then 1 else T.link.twice t.nElem)
    else some t).map (fun t =>
      ({ t with data := t.data ++ [.raw], link := t.link ++ [T.link.tail] }, t.nElem))
  else
    (t.data[t.freelistHead]?.bind Cell.next?).map (fun p =>
      ({ t with freelistSize := t.freelistSize - 1, freelistHead := p,
                data := t.data.set t.freelistHead .raw,
                link := t.link.set t.freelistHead T.link.tail }, t.freelistHead))

/-- The new element put into its slot and at the head of its bucket; the shared constant
    `tail` is no bucket that can be written. -/
def store (slot b : Nat) (e : Elem) : Option (Tab Elem) :=
  if t.nBucket = 1 then none
  else t.bucket[b]?.map (fun p =>
    { t with data := t.data.set slot (.elem e), link := t.link.set slot p,
             bucket := t.bucket.set b slot })

/-- `insert_i`: the slot of the key and whether it is new. -/
def insertI (e : Elem) : Option (Tab Elem × Nat × Bool) :=
  let h := T.hashTp (T.extract e)
  (seekIn T t (hasKey T t (T.extract e)) (h % t.nBucket)).bind (fun r =>
    if r.2 ≠ T.link.tail then some (t, r.2, false)
    else
      (if t.nElem - t.freelistSize ≥ t.maxload then
        (rehash T t (t.nBucket + 1)).map (fun r => (r.1, h % r.2))
      else some (t, h % t.nBucket)).bind (fun tb =>
        (riskSlotAlloc T tb.1).bind (fun ts =>
          (store ts.1 ts.2 tb.2 e).map (fun t => (t, ts.2, true)))))

/-- `fast_slot_free`: the slot goes onto the free list, and automatic compaction may run. -/
def fastSlotFree (slot : Nat) : Option (Tab Elem) :=
  (t.elemAt slot).bind (fun _ =>
    let t1 := { t with link := t.link.set slot T.link.delmark,
                       data := t.data.set slot (.next t.freelistHead),
                       freelistSize := t.freelistSize + 1, freelistHead := slot }
    if t1.enableFreelistReuse = false then some t1
    else if t1.enableAutoGc ∧ t1.freelistSize > t1.nElem / 2 then
      (revokeDeleted T t1).map Prod.fst
    else some t1)

/-- The slot taken out of the chain of bucket `b`. -/
def unlinkSlot (b : Nat) (prev : Option Nat) (slot : Nat) : Option (Tab Elem) :=
  t.link[slot]?.map (fun q =>
    { t with link := (unlink t.link t.bucket b prev q).1,
             bucket := (unlink t.link t.bucket b prev q).2 })

/-- `erase(key)`, with the number of erased elements. -/
def erase (k : Key) : Option (Tab Elem × Nat) :=
  let b := T.hashTp k % t.nBucket
  (seekIn T t (hasKey T t k) b).bind (fun r =>
    if r.2 = T.link.tail then some (t, 0)
    else (unlinkSlot t b r.1 r.2).bind (fun t =>
      (fastSlotFree T t r.2).map (fun t => (t, 1))))

/-- `risk_unlink`: the walk looks for the slot itself and does not expect the end. -/
def riskUnlink (idx : Nat) : Option (Tab Elem) :=
  (t.elemAt idx).bind (fun e =>
    let b := T.hashTp (T.extract e) % t.nBucket
    (seekIn T t (fun p => some (p == idx)) b).bind (fun r =>
      if r.2 = T.link.tail then none else unlinkSlot t b r.1 r.2))

/-- `erase_i` -/
def eraseI (idx : Nat) : Option (Tab Elem) :=
  (riskUnlink T t idx).bind (fun t => fastSlotFree T t idx)

/-! ## Erasing by a predicate -/

/-- `erase_if_impl`, with the number of erased elements. -/
def eraseIfImpl (pred : Elem → Bool) : Option (Tab Elem × Nat) :=
  (if t.freelistSize ≠ 0 then (revokeDeletedNoRelink T t).map Prod.fst else some t).bind (fun t =>
    (sweep T.copy (fun _ c => c.elem?.map pred) t.nElem 0 t.data).map (fun kept =>
      match kept with
      | none => (t, 0)
      | some [] => (init T, t.nElem)
      | some (c :: data) =>
        ({ t with data := c :: data, link := t.link.take (data.length + 1) },
          t.nElem - (data.length + 1))))

/-- `keepid_erase_if`: the others keep their indices. -/
def keepidEraseIf (pred : Elem → Bool) : Option (Tab Elem × Nat) :=
  if (t.freelistSize = 0 ∧ t.freelistHead ≠ T.link.tail) ∨
      (t.freelistSize ≠ 0 ∧ t.nElem ≤ t.freelistHead) then none
  else
    let all := t.freelistSize = 0
    Runs.run (fun (s : Tab Elem × Nat) i =>
        s.1.link[i]?.bind (fun p =>
          if all ∨ T.link.delmark ≠ p then
            (s.1.elemAt i).bind (fun e =>
              if pred e then (eraseI T s.1 i).map (fun t => (t, s.2 + 1)) else some s)
          else some s))
      (t, 0) (range t.nElem)

/-- `erase_if` -/
def eraseIf (pred : Elem → Bool) : Option (Tab Elem × Nat) :=
  if t.enableFreelistReuse = false then keepidEraseIf T t pred
  else (eraseIfImpl T t pred).bind (fun r =>
    if r.1.nElem ≠ t.nElem then (relink T r.1).map (fun t => (t, r.2)) else some r)

/-- `no_shrink_after_erase_if` -/
def noShrinkAfterEraseIf (pred : Elem → Bool) : Option (Tab Elem × Nat) :=
  (eraseIfImpl T t pred).bind (fun r => (relink T r.1).map (fun t => (t, r.2)))

/-- `erase_all` -/
def eraseAll : Option (Tab Elem) :=
  let bucket := if t.nElem > t.freelistSize then replicate t.nBucket T.link.tail
    else t.bucket
  if t.freelistHead < T.link.delmark then
    if t.nElem ≤ t.freelistHead then none
    else some { t with data := [], link := [], bucket := bucket, freelistHead := T.link.tail,
                       freelistSize := 0 }
  else some { t with data := [], link := [], bucket := bucket }

/-- The copy constructor. -/
def copy : Tab Elem :=
  if t.nElem = 0 then { t with maxElem := t.nElem, bucket := [T.link.tail], maxload := 0 }
  else { t with maxElem := t.nElem }

/-! ## The invariant -/

theorem LinkTp.delmark_lt_tail (w : LinkTp) : w.delmark < w.tail := by
  cases w <;> decide

theorem LinkTp.delmark_ge (w : LinkTp) : 254 ≤ w.delmark := by
  cases w <;> decide

variable {e : Elem} {i j q : Nat} {prev : Option Nat}

theorem Cell.elem?_eq_some_iff : c.elem? = some e ↔ c = .elem e := by
  cases c <;> simp [Cell.elem?]

theorem elemAt_eq_some_iff {t : Tab Elem} : t.elemAt i = some e ↔ t.data[i]? = some (.elem e) := by
  unfold Tab.elemAt
  rw [bind_eq_some_iff]
  constructor
  · rintro ⟨c, hc, he⟩
    rw [hc, Cell.elem?_eq_some_iff.mp he]
  · intro h
    exact ⟨_, h, rfl⟩

/-- A slot with an element. -/
def Live (i : Nat) : Prop := ∃ e, t.data[i]? = some (.elem e)

/-- A slot of the free list. -/
def Deleted (i : Nat) : Prop := ∃ p, t.data[i]? = some (.next p)

/-- The bucket of a slot. -/
def place (i : Nat) : Nat :=
  match t.elemAt i with
  | some e => T.hash (T.extract e) % t.nBucket
  | none => 0

/-- The bucket of an element, by its hash value. -/
theorem place_eq {T : Traits Key Elem} {t : Tab Elem} (h : t.data[i]? = some (.elem e)) :
    place T t i = T.hash (T.extract e) % t.nBucket := by
  unfold place
  rw [elemAt_eq_some_iff.mpr h]

/-- The links of the free list, read from the storage of the dead elements. -/
def nexts (data : List (Cell Elem)) : List Nat := data.map (fun c => c.next?.getD 0)

/-- Two cells do not hold elements with the same key. -/
def Apart (c c' : Cell Elem) : Prop :=
  ∀ e e', c = .elem e → c' = .elem e' → T.extract e ≠ T.extract e'

/-- What holds of the storage, whatever the chains are. -/
structure Base (T : Traits Key Elem) (t : Tab Elem) : Prop where
  lengths : t.data.length = t.link.length
  fits : t.link.length ≤ t.maxElem
  bound : t.maxElem ≤ T.link.delmark
  start : t.nBucket = 1 → t.bucket = [T.link.tail] ∧ t.link = [] ∧ t.maxload = 0
  bucket_pos : 0 < t.nBucket
  filled : ∀ i : Nat, t.data[i]? ≠ some Cell.raw
  marked : ∀ i, Deleted t i → t.link[i]? = some T.link.delmark
  keys : t.data.Pairwise (Apart T)
  hashes : ∀ e, Cell.elem e ∈ t.data → T.Fits (T.extract e)
  free : ∃ l, Chain T.link.tail (nexts t.data) t.freelistHead l ∧ l.Nodup ∧
    l.length = t.freelistSize ∧ ∀ i, i ∈ l ↔ Deleted t i

/-- **THE INVARIANT**: every live slot is on the chain of its bucket. -/
structure WellFormed (T : Traits Key Elem) (t : Tab Elem) : Prop extends Base T t where
  chains : Buckets T.link.tail t.link t.bucket (Live t) (place T t)

variable {T} {t}

theorem place_lt (hpos : 0 < t.nBucket) (i : Nat) : place T t i < t.bucket.length := by
  unfold place
  cases t.elemAt i with
  | none => exact hpos
  | some e => exact mod_lt _ hpos

theorem Live.lt (h : Live t i) : i < t.data.length := by
  obtain ⟨e, he⟩ := h
  exact (List.getElem_of_getElem? he).1

theorem Deleted.lt (h : Deleted t i) : i < t.data.length := by
  obtain ⟨p, hp⟩ := h
  exact (List.getElem_of_getElem? hp).1

/-- Every slot is live or deleted. -/
theorem Base.live_or_deleted (h : Base T t) (hi : i < t.link.length) : Live t i ∨ Deleted t i := by
  obtain ⟨c, hc⟩ : ∃ c, t.data[i]? = some c :=
    ⟨_, getElem?_eq_getElem (h.lengths ▸ hi)⟩
  cases c with
  | elem e => exact .inl ⟨e, hc⟩
  | next p => exact .inr ⟨p, hc⟩
  | raw => exact absurd hc (h.filled i)

/-- No slot is both. -/
theorem not_live_and_deleted (hl : Live t i) (hd : Deleted t i) : False := by
  obtain ⟨e, he⟩ := hl
  obtain ⟨p, hp⟩ := hd
  rw [he] at hp
  cases hp

theorem Base.nElem_le (h : Base T t) : t.link.length ≤ T.link.delmark :=
  h.fits.trans h.bound

/-- Without freed slots every slot is live. -/
theorem Base.live_of_free_zero (h : Base T t) (hzero : t.freelistSize = 0)
    (hi : i < t.link.length) : Live t i := by
  obtain ⟨l, -, -, hlen, hmem⟩ := h.free
  rcases h.live_or_deleted hi with hl | hd
  · exact hl
  · rw [hzero] at hlen
    rw [eq_nil_of_length_eq_zero hlen] at hmem
    exact absurd ((hmem i).mpr hd) not_mem_nil

/-- The link of a live slot is not the mark of deletion. -/
theorem WellFormed.live_link (h : WellFormed T t) {p : Nat} (hi : Live t i)
    (hp : t.link[i]? = some p) : p ≠ T.link.delmark := by
  obtain ⟨q, hq, hor⟩ := h.chains.link_of_member hi (place_lt h.bucket_pos i)
  obtain rfl := mem_unique hq hp
  have hlt := T.link.delmark_lt_tail
  have hle := h.nElem_le
  rcases hor with rfl | hlive
  · omega
  · have := hlive.lt
    rw [h.lengths] at this
    omega

/-! ## Rebuilding the chains -/

theorem not_live_nil (hnil : t.link = []) (hlen : t.data.length = t.link.length) (i : Nat) :
    ¬ Live t i := by
  intro h
  have := h.lt
  rw [hlen, hnil] at this
  exact not_lt_zero i this

/-- **RELINK** puts every live slot back onto the chain of its bucket. -/
theorem relink_wf (h : Base T t)
    (hmark : t.freelistSize ≠ 0 → ∀ i p, Live t i → t.link[i]? = some p → p ≠ T.link.delmark) :
    ∃ link bucket, relink T t = some { t with link := link, bucket := bucket } ∧
      link.length = t.link.length ∧ bucket.length = t.bucket.length ∧
      WellFormed T { t with link := link, bucket := bucket } := by
  -- without buckets of its own the table is empty
  unfold relink
  split
  · have hle := h.nElem_le
    have hlt := T.link.delmark_lt_tail
    obtain ⟨link, bucket, hrun, hlen, hblen, hbuckets, hsame⟩ :=
      @relink_spec T.link.tail t.link
        (fun link j => if t.freelistSize = 0 then some true
          else link[j]?.map (fun p => T.link.delmark != p))
        (fun j => (t.elemAt j).map (fun e => T.hash (T.extract e) % t.nBucket))
        (Live t) (place T t) t.nBucket t.nElem
        (fun j hj _ => by change j < t.link.length at hj; omega)
        le_rfl
        -- deleted slots are told by their link, as long as no live one has the mark
        (fun j hj link' hlink' => by
          by_cases hzero : t.freelistSize = 0
          · exact .inl ⟨h.live_of_free_zero hzero hj, by rw [if_pos hzero]⟩
          obtain ⟨p, hp⟩ : ∃ p, t.link[j]? = some p := ⟨_, getElem?_eq_getElem hj⟩
          rw [if_neg hzero, hlink', hp, map_some]
          rcases h.live_or_deleted hj with hl | hd
          · refine .inl ⟨hl, ?_⟩
            rw [bne_iff_ne.mpr (hmark hzero j p hl hp).symm]
          · have hpd := h.marked j hd
            obtain rfl := mem_unique hp hpd
            refine .inr ⟨fun hl => not_live_and_deleted hl hd, ?_⟩
            rw [bne_self_eq_false])
        (fun j hj hl => by
          obtain ⟨e, he⟩ := hl
          refine ⟨?_, place_lt h.bucket_pos j⟩
          rw [elemAt_eq_some_iff.mpr he, place_eq he]
          rfl)
    refine ⟨link, bucket, ?_, hlen, hblen, ?_⟩
    · rw [hrun]
      rfl
    refine { lengths := h.lengths.trans hlen.symm, fits := ?_, bound := h.bound, start := ?_,
             bucket_pos := ?_, filled := h.filled, marked := ?_, keys := h.keys,
             hashes := h.hashes, free := h.free, chains := ?_ }
    · rw [hlen]
      exact h.fits
    · intro hone
      change bucket.length = 1 at hone
      omega
    · show 0 < bucket.length
      omega
    · intro i hd
      rw [hsame i (fun hl => not_live_and_deleted hl.2 hd)]
      exact h.marked i hd
    refine hbuckets.congr (fun _ _ => rfl) (fun i => ?_) (fun i _ => ?_)
    · constructor
      · intro hl
        exact ⟨lt_of_lt_of_eq hl.lt h.lengths, hl⟩
      · exact And.right
    · unfold place Tab.nBucket
      rw [hblen]
      rfl
  have hone : t.nBucket = 1 := by
    have := h.bucket_pos
    omega
  obtain ⟨hbucket, hnil, -⟩ := h.start hone
  refine ⟨t.link, t.bucket, rfl, rfl, rfl, { h with chains := ?_ }⟩
  rw [hbucket]
  exact Buckets.empty T.link.tail t.link 1 _ (not_live_nil hnil h.lengths)

/-- The slots, the reserved memory and the free list are the same. -/
structure SameSlots (t t' : Tab Elem) : Prop where
  data : t'.data = t.data
  length : t'.link.length = t.link.length
  maxElem : t'.maxElem = t.maxElem
  freelistSize : t'.freelistSize = t.freelistSize
  reuse : t'.enableFreelistReuse = t.enableFreelistReuse

/-- **REHASH** keeps the slots and spreads them over the new buckets. -/
theorem rehash_wf (h : WellFormed T t) (n : Nat) :
    ∃ t', rehash T t n = some (t', nextPrime n) ∧ WellFormed T t' ∧ SameSlots t t' ∧
      t'.nBucket = nextPrime n := by
  unfold rehash
  have hge := nextPrime_ge n
  by_cases hnb : nextPrime n = t.nBucket
  · rw [if_neg (not_not_intro hnb)]
    exact ⟨t, rfl, h, ⟨rfl, rfl, rfl, rfl, rfl⟩, hnb.symm⟩
  rw [if_pos hnb]
  have hlen : (replicate (nextPrime n) T.link.tail).length = nextPrime n :=
    length_replicate
  have hbase : Base T { t with bucket := replicate (nextPrime n) T.link.tail } :=
    { h.toBase with
      start := fun hone => by
        change (replicate (nextPrime n) T.link.tail).length = 1 at hone
        omega
      bucket_pos := by
        show 0 < (replicate (nextPrime n) T.link.tail).length
        omega }
  obtain ⟨link, bucket, hrelink, hllen, hblen, hwf⟩ :=
    relink_wf hbase (fun _ i p hi hp => h.live_link hi hp)
  rw [hrelink]
  refine ⟨_, rfl, { hwf with start := fun hone => ?_ }, ⟨rfl, hllen, rfl, rfl, rfl⟩, ?_⟩
  · change bucket.length = 1 at hone
    change bucket.length = (replicate (nextPrime n) T.link.tail).length at hblen
    omega
  · exact hblen.trans hlen

/-! ## Looking up a key -/

/-- Keys are compared by equality. -/
structure Lawful (T : Traits Key Elem) : Prop where
  equal_iff : ∀ a b, T.equal a b = true ↔ a = b

/-- The cast to `HashTp` loses nothing. -/
theorem Traits.Fits.hashTp_eq (h : T.Fits k) : T.hashTp k = T.hash k := mod_eq_of_lt h

theorem Lawful.equal_false (hT : Lawful T) {a b : Key} (hne : a ≠ b) : T.equal a b = false :=
  Bool.eq_false_iff.mpr (fun h => hne ((hT.equal_iff a b).mp h))

/-- What the comparison at slot `i` says. -/
theorem hasKey_eq (he : t.data[i]? = some (.elem e)) (k : Key) :
    hasKey T t k i = some (T.equal k (T.extract e)) := by
  unfold hasKey
  rw [elemAt_eq_some_iff.mpr he, map_some]

/-- No two slots have the same key. -/
theorem Base.key_unique (h : Base T t) {e' : Elem} (he : t.data[i]? = some (.elem e))
    (he' : t.data[j]? = some (.elem e')) (hkey : T.extract e = T.extract e') : i = j := by
  obtain ⟨hi, hie⟩ := List.getElem_of_getElem? he
  obtain ⟨hj, hje⟩ := List.getElem_of_getElem? he'
  have hpair := pairwise_iff_getElem.mp h.keys
  rcases lt_trichotomy i j with hlt | heq | hlt
  · exact absurd hkey (hpair i j hi hj hlt e e' hie hje)
  · exact heq
  · exact absurd hkey.symm (hpair j i hj hi hlt e' e hje hie)

theorem WellFormed.head (h : WellFormed T t) (i : Nat) :
    ∃ p, t.bucket[place T t i]? = some p :=
  ⟨_, getElem?_eq_getElem (place_lt h.bucket_pos i)⟩

/-- The walk along the chain of a live slot finds it, and with the slot before it the slot
    can be taken out. -/
theorem seekIn_found (h : WellFormed T t) (he : t.data[i]? = some (.elem e))
    (hit : Nat → Option Bool) (hhit : hit i = some true)
    (hmiss : ∀ j, Live t j → j ≠ i → hit j = some false) :
    ∃ prev q, seekIn T t hit (T.hashTp (T.extract e) % t.nBucket) = some (prev, i) ∧
      t.link[i]? = some q ∧
      Buckets T.link.tail (unlink t.link t.bucket (place T t i) prev q).1
        (unlink t.link t.bucket (place T t i) prev q).2 (fun j => Live t j ∧ j ≠ i)
        (place T t) ∧
      ∀ j, ¬ Live t j →
        (unlink t.link t.bucket (place T t i) prev q).1[j]? = t.link[j]? := by
  obtain ⟨p, hp⟩ := h.head i
  obtain ⟨prev, q, hseek, hq, hrest⟩ := h.chains.seek_hit hp ⟨e, he⟩ hhit
    (fun j hj _ hne => hmiss j hj hne)
  refine ⟨prev, q, ?_, hq, hrest⟩
  unfold seekIn
  rw [(h.hashes e (mem_of_getElem? he)).hashTp_eq, ← place_eq he, hp, Option.bind_some, hseek]

/-- Only the slot of a key compares equal to it. -/
theorem hasKey_hits (hT : Lawful T) (h : Base T t) (he : t.data[i]? = some (.elem e)) :
    hasKey T t (T.extract e) i = some true ∧
      ∀ j, Live t j → j ≠ i → hasKey T t (T.extract e) j = some false := by
  constructor
  · rw [hasKey_eq he, (hT.equal_iff _ _).mpr rfl]
  · rintro j ⟨e', he'⟩ hne
    rw [hasKey_eq he', hT.equal_false (fun hkey => hne (h.key_unique he he' hkey).symm)]

/-- The walk for a missing key reaches the end. -/
theorem seekIn_absent (hT : Lawful T) (h : WellFormed T t)
    (hk : ∀ e, Cell.elem e ∈ t.data → T.extract e ≠ k) :
    ∃ prev, seekIn T t (hasKey T t k) (T.hashTp k % t.nBucket) =
      some (prev, T.link.tail) := by
  obtain ⟨p, hp⟩ : ∃ p, t.bucket[T.hashTp k % t.nBucket]? = some p :=
    ⟨_, getElem?_eq_getElem (mod_lt _ h.bucket_pos)⟩
  have hmiss : ∀ i, Live t i → place T t i = T.hashTp k % t.nBucket →
      hasKey T t k i = some false := by
    rintro i ⟨e, he⟩ -
    rw [hasKey_eq he, hT.equal_false (fun hkey => hk e (mem_of_getElem? he) hkey.symm)]
  obtain ⟨prev, hseek⟩ := h.chains.seek_miss hp hmiss
  exact ⟨prev, by unfold seekIn; rw [hp, bind_some, hseek]⟩

/-- No live slot is the end of a chain. -/
theorem WellFormed.live_ne_tail (h : WellFormed T t) (hi : Live t i) : i ≠ T.link.tail := by
  have hle := h.nElem_le
  have hlt := T.link.delmark_lt_tail
  have := lt_of_lt_of_eq hi.lt h.lengths
  omega

/-- **FIND**: the slot of the key, -/
theorem findI_found (hT : Lawful T) (h : WellFormed T t) (he : t.data[i]? = some (.elem e)) :
    findI T t (T.extract e) = some i := by
  obtain ⟨hhit, hmiss⟩ := hasKey_hits hT h.toBase he
  obtain ⟨prev, q, hseek, -⟩ := seekIn_found h he _ hhit hmiss
  unfold findI findWithHashI
  rw [hseek, map_some, if_neg (h.live_ne_tail ⟨e, he⟩)]

/-- `find_i` of a missing key is `end_i`. -/
theorem findI_absent (hT : Lawful T) (h : WellFormed T t)
    (hk : ∀ e, Cell.elem e ∈ t.data → T.extract e ≠ k) : findI T t k = some t.nElem := by
  obtain ⟨prev, hseek⟩ := seekIn_absent hT h hk
  unfold findI findWithHashI
  rw [hseek, map_some, if_pos rfl]

/-! ## Freeing a slot -/

theorem pairwise_set {α : Type} {R : α → α → Prop} (hsymm : ∀ a b, R a b → R b a) {l : List α}
    (h : l.Pairwise R) {c : α} (hc : ∀ j x, j ≠ i → l[j]? = some x → R c x) :
    (l.set i c).Pairwise R := by
  rw [pairwise_iff_getElem] at h ⊢
  intro a b ha hb hab
  rw [length_set] at ha hb
  rw [getElem_set, getElem_set]
  split
  · rw [if_neg (by omega)]
    exact hc b _ (by omega) (getElem?_eq_getElem hb)
  · split
    · exact hsymm _ _ (hc a _ (by omega) (getElem?_eq_getElem ha))
    · exact h a b ha hb hab

theorem Apart.symm {c' : Cell Elem} (h : Apart T c c') : Apart T c' c :=
  fun e e' he he' hkey => h e' e he' he hkey.symm

/-- The table after one live slot has gone onto the free list. -/
def freed (T : Traits Key Elem) (t : Tab Elem) (i : Nat) (prev : Option Nat) (q : Nat) :
    Tab Elem :=
  { t with link := (unlink t.link t.bucket (place T t i) prev q).1.set i T.link.delmark,
           bucket := (unlink t.link t.bucket (place T t i) prev q).2,
           data := t.data.set i (.next t.freelistHead),
           freelistSize := t.freelistSize + 1, freelistHead := i }

/-- Freeing a slot leaves the others live. -/
theorem live_freed (hi : Live t i) : Live (freed T t i prev q) j ↔ Live t j ∧ j ≠ i := by
  show (∃ e, (t.data.set i _)[j]? = some _) ↔ _
  by_cases hij : i = j
  · subst hij
    rw [getElem?_set_self hi.lt]
    simp
  · rw [getElem?_set_ne hij]
    exact ⟨fun h => ⟨h, fun heq => hij heq.symm⟩, And.left⟩

/-- The freed slot joins the deleted ones. -/
theorem deleted_freed (hi : Live t i) : Deleted (freed T t i prev q) j ↔ Deleted t j ∨ j = i := by
  show (∃ p, (t.data.set i _)[j]? = some _) ↔ _
  by_cases hij : i = j
  · subst hij
    rw [getElem?_set_self hi.lt]
    exact ⟨fun _ => .inr rfl, fun _ => ⟨_, rfl⟩⟩
  · rw [getElem?_set_ne hij]
    exact ⟨.inl, fun h => h.resolve_right (Ne.symm hij)⟩

theorem nexts_set (data : List (Cell Elem)) (i : Nat) (c : Cell Elem) :
    nexts (data.set i c) = (nexts data).set i (c.next?.getD 0) :=
  map_set

/-- **FREEING** keeps the invariant. -/
theorem freed_wf (h : WellFormed T t) (he : t.data[i]? = some (.elem e))
    (hchains : Buckets T.link.tail (unlink t.link t.bucket (place T t i) prev q).1
      (unlink t.link t.bucket (place T t i) prev q).2 (fun j => Live t j ∧ j ≠ i) (place T t))
    (hsame : ∀ j, ¬ Live t j → (unlink t.link t.bucket (place T t i) prev q).1[j]? = t.link[j]?) :
    WellFormed T (freed T t i prev q) := by
  have hi : Live t i := ⟨e, he⟩
  obtain ⟨hlen, hblen⟩ := unlink_length t.link t.bucket (place T t i) prev q
  have hil : i < t.link.length := lt_of_lt_of_eq hi.lt h.lengths
  -- the first bucket array belongs to empty tables only
  have hne1 : t.nBucket ≠ 1 := by
    intro hone
    rw [(h.start hone).2.1] at hil
    exact not_lt_zero i hil
  refine { lengths := ?_, fits := ?_, bound := h.bound, start := ?_, bucket_pos := ?_,
           filled := fun j => ?_, marked := fun j hj => ?_, keys := ?_,
           hashes := fun e' hmem => h.hashes e' ?_, free := ?_, chains := ?_ }
  · show (t.data.set i _).length = (set _ i _).length
    rw [length_set, length_set, hlen, h.lengths]
  · show (set _ i _).length ≤ _
    rw [length_set, hlen]
    exact h.fits
  · intro hone
    exact absurd (hblen.symm.trans hone) hne1
  · exact lt_of_lt_of_eq h.bucket_pos hblen.symm
  · show (t.data.set i (.next t.freelistHead))[j]? ≠ some Cell.raw
    by_cases hij : i = j
    · subst hij
      rw [getElem?_set_self hi.lt]
      intro hraw
      cases hraw
    · rw [getElem?_set_ne hij]
      exact h.filled j
  · show (set _ i T.link.delmark)[j]? = some T.link.delmark
    by_cases hij : i = j
    · subst hij
      exact getElem?_set_self (hlen ▸ hil)
    · have hdel := ((deleted_freed hi).mp hj).resolve_right (Ne.symm hij)
      rw [getElem?_set_ne hij, hsame j (fun hl => not_live_and_deleted hl hdel)]
      exact h.marked j hdel
  · refine pairwise_set (fun _ _ => Apart.symm) h.keys (fun j x _ _ e1 e2 h1 _ => ?_)
    cases h1
  · exact (mem_or_eq_of_mem_set hmem).resolve_right (by simp)
  -- the freed slot is the new head
  · obtain ⟨l, hl, hnodup, hlen', hmem⟩ := h.free
    have hnot : i ∉ l := fun hil => not_live_and_deleted hi ((hmem i).mp hil)
    refine ⟨i :: l, ?_, nodup_cons.mpr ⟨hnot, hnodup⟩, ?_, fun j => ?_⟩
    · show Chain T.link.tail (nexts (t.data.set i _)) i _
      rw [nexts_set]
      refine hl.cons hnot (h.live_ne_tail hi) ?_
      unfold nexts
      rw [length_map]
      exact hi.lt
    · show l.length + 1 = t.freelistSize + 1
      rw [hlen']
    · rw [mem_cons, hmem j, deleted_freed hi]
      exact or_comm
  refine hchains.congr (fun j hj => ?_) (fun j => live_freed hi) (fun j hj => ?_)
  · exact getElem?_set_ne (fun heq => hj.2 heq.symm)
  · obtain ⟨⟨e', he'⟩, hne⟩ := hj
    have he2 : (freed T t i prev q).data[j]? = some (.elem e') :=
      (getElem?_set_ne (Ne.symm hne)).trans he'
    rw [place_eq he2, place_eq he']
    show _ % (freed T t i prev q).bucket.length = _
    rw [show (freed T t i prev q).bucket.length = t.bucket.length from hblen]
    rfl

end GoldHash
