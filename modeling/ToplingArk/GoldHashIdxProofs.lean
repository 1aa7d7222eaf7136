import ToplingArk.GoldHashProofs

/-! # gold_hash_idx — hash tables over indexes

    The keys live elsewhere: the table only has a link for every index and the heads of the
    buckets, and reads the key of an index through the hash and equality functions.  An
    index that is not in the table has the delete mark as its link.  `gold_hash_idx1` grows
    its buckets with the number of indexes in use; `gold_hash_idx2` has as many buckets as
    links.  `none` is a failed sanity check, an index out of range, a key that cannot be
    read, or a walk that does not end. -/

namespace GoldHashIdx

open HashChain GoldHash List Option Function Nat

/-- The two classes. -/
inductive Kind
  | idx1
  | idx2
  deriving DecidableEq, Repr

/-- The class, its marks, the functions of the keys, and the arithmetic with the load factor
    (in floating point), any functions. -/
structure Config (Key : Type) where
  kind : Kind
  tail : Nat
  hash : Key → Nat
  equal : Key → Key → Bool
  grow : Nat → Nat
  load : Nat → Nat

variable {Key : Type} (C : Config Key) {i p n n' x : Nat} {k : Key} {link : List Nat}

/-- `delmark`: the link of an index that is not in the table. -/
def Config.delmark : Nat := C.tail - 1

/-- The table.  `bucket` is `[tail]` while an `idx1` points to the shared constant `tail`. -/
structure Idx where
  link : List Nat
  bucket : List Nat
  nUsed : Nat
  maxload : Nat
  deriving DecidableEq, Repr

/-- The empty table. -/
def new : Idx where
  link := []
  bucket := match C.kind with
    | .idx1 => [C.tail]
    | .idx2 => []
  nUsed := 0
  maxload := 0

/-- `relink`, over all links that are not the delete mark. -/
def relink (C : Config Key) (key : Nat → Option Key) (t : Idx) (nb : Nat) : Option Idx :=
  (HashChain.relink (fun link i => link[i]?.map (fun p => C.delmark != p))
    (fun i => (key i).map (fun k => C.hash k % nb)) t.link.length t.link
    (replicate nb C.tail)).map (fun s => { t with link := s.1, bucket := s.2 })

/-- The links for a new number of indexes; new ones are not in the table. -/
def resizeLink (link : List Nat) (n : Nat) : List Nat :=
  if n ≤ link.length then link.take n
  else link ++ replicate (n - link.length) C.delmark

variable (key : Nat → Option Key)

/-- `resize`: `idx1` only resizes its links, `idx2` goes to the next prime size. -/
def resize (t : Idx) (n : Nat) : Option Idx :=
  match C.kind with
  | .idx1 => some { t with link := resizeLink C t.link n }
  | .idx2 =>
    if t.link.length / 2 ≤ n ∧ n ≤ t.link.length then some t
    else if nextPrime n = t.link.length then some t
    else relink C key { t with link := resizeLink C t.link (nextPrime n) } (nextPrime n)

/-- `rehash` of `idx1`. -/
def rehash (t : Idx) (n : Nat) : Option Idx :=
  if t.bucket.length ≠ nextPrime n then
    (relink C key t (nextPrime n)).map (fun t => { t with maxload := C.load (nextPrime n) })
  else some t

/-- Whether an index is not in the table. -/
def isDeleted (t : Idx) (idx : Nat) : Option Bool :=
  t.link[idx]?.map (fun p => C.delmark == p)

/-- Whether an index has an equal key. -/
def hasKey (k : Key) (p : Nat) : Option Bool :=
  (key p).map (fun k' => C.equal k k')

/-- The walk along a bucket, with the link before the hit. -/
def seekIn (t : Idx) (hit : Nat → Option Bool) (b : Nat) : Option (Option Nat × Nat) :=
  t.bucket[b]?.bind (fun p => seek C.tail t.link hit (t.link.length + 1) none p)

/-- `insert_at`: an index with an equal key, or the index itself, which is new then. -/
def insertAt (t : Idx) (idx : Nat) : Option (Idx × Nat) :=
  (key idx).bind (fun k =>
    (seekIn C t (hasKey C key k) (C.hash k % t.bucket.length)).bind (fun r =>
      if r.2 ≠ C.tail then some (t, r.2)
      else
        (match C.kind with
          | .idx1 => if t.maxload ≤ t.nUsed then rehash C key t (C.grow t.nUsed + 1) else some t
          | .idx2 => some t).bind (fun t =>
          t.bucket[C.hash k % t.bucket.length]?.map (fun p =>
            ({ t with link := t.link.set idx p,
                      bucket := t.bucket.set (C.hash k % t.bucket.length) idx,
                      nUsed := t.nUsed + 1 }, idx)))))

/-- `erase_i`; the walk looks for the index itself. -/
def eraseI (t : Idx) (idx : Nat) : Option Idx :=
  t.link[idx]?.bind (fun q =>
    if C.delmark = q then some t
    else
      (key idx).bind (fun k =>
        (seekIn C t (fun p => some (p == idx)) (C.hash k % t.bucket.length)).bind (fun r =>
          if r.2 = C.tail then none
          else
            some { t with
              link := (unlink t.link t.bucket (C.hash k % t.bucket.length) r.1 q).1.set idx
                C.delmark,
              bucket := (unlink t.link t.bucket (C.hash k % t.bucket.length) r.1 q).2,
              nUsed := t.nUsed - 1 })))

/-! ## The invariant -/

/-- The table has exactly the members, each on one chain: that of its hash value, unless it
    is stale because its key has changed since. -/
structure Holds (C : Config Key) (key : Nat → Option Key) (t : Idx) (n : Nat)
    (member stale : Nat → Prop) : Prop where
  size : n ≤ t.link.length
  small : ∀ i, member i → i < n
  marks : n ≤ C.delmark
  unmarked : ∀ i : Nat, i < t.link.length → ¬ member i → t.link[i]? = some C.delmark
  keys : ∀ i, member i → ∃ k, key i = some k
  apart : ∀ i j, member i → member j → key i = key j → i = j
  buckets : 1 < t.bucket.length ∨ (C.kind = .idx1 ∧ t.bucket = [C.tail] ∧ t.maxload = 0)
  square : C.kind = .idx2 → t.bucket.length = t.link.length
  chains : ∃ place : Nat → Nat, Buckets C.tail t.link t.bucket member place ∧
    (∀ i, member i → place i < t.bucket.length) ∧
    ∀ i k, member i → ¬ stale i → key i = some k → place i = C.hash k % t.bucket.length

variable {C} {key} {t : Idx} {n : Nat} {member stale : Nat → Prop}

section

variable (h : Holds C key t n member stale)

include h

/-- Only the keys of the members matter. -/
theorem Holds.congr {key' : Nat → Option Key} (hkey : ∀ i, member i → key' i = key i) :
    Holds C key' t n member stale := by
  obtain ⟨place, hb, hlt, hplace⟩ := h.chains
  refine { h with keys := fun i hi => ?_, apart := fun i j hi hj heq => ?_,
                  chains := ⟨place, hb, hlt, fun i k hi hs hk => ?_⟩ }
  · rw [hkey i hi]
    exact h.keys i hi
  · rw [hkey i hi, hkey j hj] at heq
    exact h.apart i j hi hj heq
  · rw [hkey i hi] at hk
    exact hplace i k hi hs hk

/-- More members may be called stale. -/
theorem Holds.mono {stale' : Nat → Prop} (hstale : ∀ i, stale i → stale' i) :
    Holds C key t n member stale' := by
  obtain ⟨place, hb, hlt, hplace⟩ := h.chains
  exact { h with
    chains := ⟨place, hb, hlt, fun i k hi hs => hplace i k hi (mt (hstale i) hs)⟩ }

theorem Holds.bucket_pos : 0 < t.bucket.length := by
  rcases h.buckets with hlt | ⟨-, hb, -⟩
  · exact zero_lt_of_lt hlt
  · rw [hb]
    exact one_pos

/-- The link of a member is not the mark of deletion. -/
theorem Holds.member_link (htail : 0 < C.tail) (hi : member i) (hp : t.link[i]? = some p) :
    p ≠ C.delmark := by
  obtain ⟨place, hb, hlt, -⟩ := h.chains
  obtain ⟨q, hq, hor⟩ := hb.link_of_member hi (hlt i hi)
  obtain rfl := mem_unique hq hp
  have hmarks := h.marks
  unfold Config.delmark at *
  rcases hor with rfl | hq
  · omega
  · have := h.small q hq
    omega

/-- `is_deleted` tells the members from the others. -/
theorem Holds.isDeleted_eq (htail : 0 < C.tail) (hi : i < n) :
    ∃ b, isDeleted C t i = some b ∧ (b = true ↔ ¬ member i) := by
  have hlt : i < t.link.length := hi.trans_le h.size
  have hp : t.link[i]? = some t.link[i] := getElem?_eq_getElem hlt
  unfold isDeleted
  rw [hp]
  refine ⟨_, rfl, ?_⟩
  rw [beq_iff_eq]
  constructor
  · intro heq hmem
    exact h.member_link htail hmem hp heq.symm
  · intro hmem
    have := h.unmarked i hlt hmem
    exact mem_unique this hp

end

/-! ## Rebuilding -/

/-- The links with their marks, whatever the chains are. -/
structure Marked (C : Config Key) (key : Nat → Option Key) (t : Idx) (n : Nat)
    (member : Nat → Prop) : Prop where
  size : n ≤ t.link.length
  small : ∀ i, member i → i < n
  marks : n ≤ C.delmark
  unmarked : ∀ i : Nat, i < t.link.length → ¬ member i → t.link[i]? = some C.delmark
  marked : ∀ i p, member i → t.link[i]? = some p → p ≠ C.delmark
  keys : ∀ i, member i → ∃ k, key i = some k

theorem Holds.toMarked (h : Holds C key t n member stale) (htail : 0 < C.tail) :
    Marked C key t n member :=
  { h with marked := fun _ _ hi hp => h.member_link htail hi hp }

/-- The bucket of an index. -/
def placeOf (C : Config Key) (key : Nat → Option Key) (nb i : Nat) : Nat :=
  (key i).elim 0 (fun k => C.hash k % nb)

/-- The bucket of an index is that of its key. -/
theorem placeOf_eq {nb : Nat} (hk : key i = some k) : placeOf C key nb i = C.hash k % nb := by
  unfold placeOf
  rw [hk]
  rfl

/-- **RELINK** puts every member onto the chain of its hash value. -/
theorem relink_holds (h : Marked C key t n member) (htail : 0 < C.tail)
    (hapart : ∀ i j, member i → member j → key i = key j → i = j) (nb : Nat) (hnb : 1 < nb)
    (hsquare : C.kind = .idx2 → nb = t.link.length) :
    ∃ link bucket, relink C key t nb = some { t with link := link, bucket := bucket } ∧
      bucket.length = nb ∧ link.length = t.link.length ∧
      ∀ maxload nUsed, Holds C key
        { link := link, bucket := bucket, nUsed := nUsed, maxload := maxload } n member
        (fun _ => False) := by
  have hstop : ∀ i, member i → i ≠ C.tail := by
    intro i hi
    have := h.small i hi
    have := h.marks
    unfold Config.delmark at this
    omega
  have hlt : ∀ i, member i → placeOf C key nb i < nb := by
    intro i hi
    obtain ⟨k, hk⟩ := h.keys i hi
    rw [placeOf_eq hk]
    exact mod_lt _ (zero_lt_of_lt hnb)
  obtain ⟨link, bucket, hrun, hlen, hblen, hbuckets, hsame⟩ :=
    @relink_spec C.tail t.link (fun link i => link[i]?.map (fun p => C.delmark != p))
      (fun i => (key i).map (fun k => C.hash k % nb)) member (placeOf C key nb) nb
      t.link.length
      (fun j _ hj => hstop j hj) le_rfl
      -- members are told by their links, which relinking has not touched yet
      (fun j hj link' hlink' => by
        have hp : t.link[j]? = some t.link[j] := getElem?_eq_getElem hj
        rw [hlink', hp, map_some]
        by_cases hm : member j
        · refine .inl ⟨hm, ?_⟩
          rw [bne_iff_ne.mpr (h.marked j _ hm hp).symm]
        · refine .inr ⟨hm, ?_⟩
          have := mem_unique hp (h.unmarked j hj hm)
          rw [this, bne_self_eq_false])
      (fun j _ hj => by
        obtain ⟨k, hk⟩ := h.keys j hj
        exact ⟨by rw [hk, placeOf_eq hk]; rfl, hlt j hj⟩)
  refine ⟨link, bucket, ?_, hblen, hlen, fun maxload nUsed => ?_⟩
  · unfold relink
    rw [hrun]
    rfl
  have hin : ∀ i, member i → i < t.link.length :=
    fun i hi => lt_of_lt_of_le (h.small i hi) h.size
  refine { size := hlen ▸ h.size, small := h.small, marks := h.marks, unmarked := ?_,
           keys := h.keys, apart := hapart,
           buckets := .inl (hblen ▸ hnb), square := fun hk => ?_,
           chains := ⟨placeOf C key nb, ?_, fun i hi => hblen ▸ hlt i hi,
             fun i k _ _ hk => ?_⟩ }
  · intro i hi hm
    rw [hlen] at hi
    rw [hsame i (fun hboth => hm hboth.2)]
    exact h.unmarked i hi hm
  · rw [hblen, hlen]
    exact hsquare hk
  · refine hbuckets.congr (fun _ _ => rfl) (fun i => ?_) (fun _ _ => rfl)
    exact ⟨fun hm => ⟨hin i hm, hm⟩, And.right⟩
  · rw [placeOf_eq hk, hblen]

/-! ## More indexes -/

theorem resizeLink_length (C : Config Key) (link : List Nat) (n : Nat) :
    (resizeLink C link n).length = n := by
  unfold resizeLink
  split
  · rename_i hle
    rw [length_take, min_eq_left hle]
  · rw [length_append, length_replicate]
    omega

/-- Old links are kept. -/
theorem resizeLink_old (hi : i < n) (hlt : i < link.length) :
    (resizeLink C link n)[i]? = link[i]? := by
  unfold resizeLink
  split
  · rw [getElem?_take, if_pos hi]
  · exact getElem?_append_left hlt

/-- New links are marked as deleted. -/
theorem resizeLink_new (hi : i < n) (hge : link.length ≤ i) :
    (resizeLink C link n)[i]? = some C.delmark := by
  unfold resizeLink
  rw [if_neg (by omega), getElem?_append_right hge, getElem?_replicate, if_pos (by omega)]

/-- New links have the delete mark. -/
theorem Marked.resize (h : Marked C key t n member) {size : Nat} (hn : n ≤ n') (hsize : n' ≤ size)
    (hmarks : n' ≤ C.delmark) :
    Marked C key { t with link := resizeLink C t.link size } n' member := by
  have hin : ∀ i, member i → i < size ∧ i < t.link.length := by
    intro i hi
    have := h.small i hi
    have := h.size
    omega
  refine { size := ?_, small := fun i hi => lt_of_lt_of_le (h.small i hi) hn,
           marks := hmarks, unmarked := fun i hi hm => ?_, marked := fun i p hi hp => ?_,
           keys := h.keys }
  · rw [resizeLink_length]
    exact hsize
  · rw [resizeLink_length] at hi
    by_cases hlt : i < t.link.length
    · rw [resizeLink_old hi hlt]
      exact h.unmarked i hlt hm
    · exact resizeLink_new hi (not_lt.mp hlt)
  · rw [resizeLink_old (hin i hi).1 (hin i hi).2] at hp
    exact h.marked i p hi hp

/-- The marks of a class: `idx2` counts in less than 64 bits. -/
structure Lawful (C : Config Key) : Prop where
  tail_pos : 0 < C.tail
  tail_le : C.kind = .idx2 → C.tail ≤ 18446744073709551557

/-- **RESIZE** keeps the members. -/
theorem resize_holds (hC : Lawful C) (h : Holds C key t n member stale) (hn : n ≤ n')
    (hmarks : n' ≤ C.delmark) :
    ∃ t', resize C key t n' = some t' ∧ Holds C key t' n' member stale := by
  have hmarked := h.toMarked hC.tail_pos
  have hgrown : ∀ m', n' ≤ m' → m' ≤ t.link.length → Holds C key t n' member stale :=
    fun m' hle hlen => { h with
      size := hle.trans hlen, marks := hmarks,
      small := fun i hi => lt_of_lt_of_le (h.small i hi) hn }
  unfold resize
  cases hkind : C.kind with
  | idx1 =>
    obtain ⟨place, hb, hlt, hplace⟩ := h.chains
    have hm := hmarked.resize hn (le_refl n') hmarks
    refine ⟨_, rfl, { h with
      size := hm.size, small := hm.small, marks := hmarks, unmarked := hm.unmarked,
      square := fun heq => by rw [hkind] at heq; cases heq
      chains := ⟨place, ?_, hlt, hplace⟩ }⟩
    refine hb.congr (fun i hi => ?_) (fun _ => Iff.rfl) (fun _ _ => rfl)
    have := h.small i hi
    have := h.size
    exact resizeLink_old (by omega) (by omega)
  | idx2 =>
    have hprime : n' ≤ nextPrime n' := by
      have := hC.tail_le hkind
      unfold Config.delmark at hmarks
      exact nextPrime_ge_self (by omega)
    -- the arrays stay when they have room and are not twice too large
    by_cases hfit : t.link.length / 2 ≤ n' ∧ n' ≤ t.link.length
    · rw [if_pos hfit]
      exact ⟨t, rfl, hgrown n' le_rfl hfit.2⟩
    rw [if_neg hfit]
    by_cases hsame : nextPrime n' = t.link.length
    · rw [if_pos hsame]
      exact ⟨t, rfl, hgrown (nextPrime n') hprime hsame.le⟩
    · rw [if_neg hsame]
      have hm := hmarked.resize hn hprime hmarks
      have hge := nextPrime_ge n'
      obtain ⟨link, bucket, hrel, -, -, hholds⟩ := relink_holds hm hC.tail_pos h.apart
        (nextPrime n') (by omega) (fun _ => (resizeLink_length C t.link _).symm)
      exact ⟨_, hrel, (hholds _ _).mono (fun i hi => hi.elim)⟩

/-- The empty table after its first `resize`. -/
theorem new_resize_holds (hC : Lawful C) (hpos : 0 < n) (hmarks : n ≤ C.delmark) :
    ∃ t', resize C key (new C) n = some t' ∧ Holds C key t' n (fun _ => False) stale := by
  have hm : Marked C key (new C) 0 (fun _ => False) :=
    { size := le_refl 0, small := fun _ h => h.elim, marks := zero_le _,
      unmarked := fun i hi _ => absurd hi (not_lt_zero i), marked := fun _ _ h => h.elim,
      keys := fun _ h => h.elim }
  unfold resize
  cases hkind : C.kind with
  | idx1 =>
    have hm' := hm.resize (zero_le n) le_rfl hmarks
    have hbucket : (new C).bucket = [C.tail] := by
      unfold new
      rw [hkind]
    refine ⟨_, rfl, { size := hm'.size, small := hm'.small, marks := hmarks,
                      unmarked := hm'.unmarked, keys := hm'.keys,
                      apart := fun _ _ h => h.elim, buckets := .inr ⟨hkind, hbucket, rfl⟩,
                      square := fun heq => by rw [hkind] at heq; cases heq
                      chains := ⟨fun _ => 0, ?_, fun _ h => h.elim, fun _ _ h => h.elim⟩ }⟩
    rw [hbucket]
    exact Buckets.empty C.tail _ 1 _ (fun _ h => h)
  | idx2 =>
    have hprime : n ≤ nextPrime n := by
      have := hC.tail_le hkind
      unfold Config.delmark at hmarks
      exact nextPrime_ge_self (by omega)
    have hge := nextPrime_ge n
    have hlen : (new C).link.length = 0 := rfl
    rw [if_neg (by omega), if_neg (by omega)]
    have hm' := hm.resize (zero_le n) hprime hmarks
    obtain ⟨link, bucket, hrel, -, -, hholds⟩ := relink_holds hm' hC.tail_pos
      (fun _ _ h => h.elim) (nextPrime n) (by omega)
      (fun _ => (resizeLink_length C (new C).link _).symm)
    exact ⟨_, hrel, (hholds _ _).mono (fun i hi => hi.elim)⟩

/-! ## Inserting and erasing -/

theorem Holds.head (h : Holds C key t n member stale) (b : Nat) :
    ∃ p, t.bucket[b % t.bucket.length]? = some p :=
  ⟨_, getElem?_eq_getElem (mod_lt _ h.bucket_pos)⟩

/-- No index is the end of a chain. -/
theorem Holds.ne_tail (h : Holds C key t n member stale) (hi : i < n) : i ≠ C.tail := by
  have hmarks := h.marks
  unfold Config.delmark at hmarks
  omega

section

variable (h : Holds C key t n member stale)

include h

/-- **INSERT_AT** finds the member with an equal key. -/
theorem insertAt_old {y : Nat} (hx : key x = some k) (hy : member y) (hk : key y = some k)
    (hstale : ¬ stale y)
    (hequal : ∀ i k', member i → key i = some k' → (C.equal k k' = true ↔ k = k')) :
    insertAt C key t x = some (t, y) := by
  obtain ⟨place, hb, hlt, hplace⟩ := h.chains
  obtain ⟨p, hp⟩ := h.head (C.hash k)
  rw [← hplace y k hy hstale hk] at hp
  have hhit : hasKey C key k y = some true := by
    unfold hasKey
    rw [hk, map_some, (hequal y k hy hk).mpr rfl]
  have hmiss : ∀ i, member i → place i = place y → i ≠ y → hasKey C key k i = some false := by
    intro i hi _ hne
    obtain ⟨k', hk'⟩ := h.keys i hi
    unfold hasKey
    rw [hk']
    refine congrArg some (Bool.eq_false_iff.mpr (fun heq => hne ?_))
    refine h.apart i y hi hy ?_
    rw [hk', hk, (hequal i k' hi hk').mp heq]
  obtain ⟨prev, q, hseek, -⟩ := hb.seek_hit hp hy hhit hmiss
  unfold insertAt seekIn
  rw [hx, bind_some, ← hplace y k hy hstale hk, hp, bind_some, hseek,
    bind_some, if_pos (h.ne_tail (h.small y hy))]

/-- A new member goes to the front of its bucket. -/
theorem Holds.push (hnb : 1 < t.bucket.length) (hx : x < n) (hnew : ¬ member x)
    (hk : key x = some k) (hp : t.bucket[C.hash k % t.bucket.length]? = some p)
    (hapart : ∀ i, member i → key i ≠ some k) (nUsed : Nat) :
    Holds C key { t with link := t.link.set x p,
                         bucket := t.bucket.set (C.hash k % t.bucket.length) x,
                         nUsed := nUsed } n (fun i => member i ∨ i = x) stale := by
  obtain ⟨place, hb, hlt, hplace⟩ := h.chains
  have hxl : x < t.link.length := hx.trans_le h.size
  have hblen : (t.bucket.set (C.hash k % t.bucket.length) x).length = t.bucket.length :=
    length_set
  -- the chains were built with another place for `x`, which was no member
  have hplace' : ∀ i, member i → update place x (C.hash k % t.bucket.length) i =
      place i := by
    intro i hi
    refine update_of_ne ?_ _ _
    rintro rfl
    exact hnew hi
  have hpush := (hb.congr (fun _ _ => rfl) (fun _ => Iff.rfl) hplace').push hnew
    (h.ne_tail hx) hxl (by rw [update_self]; exact hp)
  rw [update_self] at hpush
  refine { size := ?_, small := ?_, marks := h.marks, unmarked := fun i hi hm => ?_, keys := ?_,
           apart := ?_, buckets := .inl (hblen.symm ▸ hnb), square := fun hkind => ?_,
           chains := ⟨_, hpush, ?_, ?_⟩ }
  · rw [length_set]
    exact h.size
  · rintro i (hi | rfl)
    · exact h.small i hi
    · exact hx
  · rw [not_or] at hm
    rw [length_set] at hi
    rw [getElem?_set_ne (fun heq => hm.2 heq.symm)]
    exact h.unmarked i hi hm.1
  · rintro i (hi | rfl)
    · exact h.keys i hi
    · exact ⟨k, hk⟩
  · rintro i j (hi | rfl) (hj | rfl) heq
    · exact h.apart i j hi hj heq
    · exact absurd (heq.trans hk) (hapart i hi)
    · exact absurd (heq.symm.trans hk) (hapart j hj)
    · rfl
  · rw [length_set, length_set]
    exact h.square hkind
  · rintro i (hi | rfl)
    · rw [hplace' i hi, hblen]
      exact hlt i hi
    · rw [update_self, hblen]
      exact mod_lt _ (zero_lt_of_lt hnb)
  intro i k' hi hs hk'
  rw [hblen]
  by_cases hix : i = x
  · subst hix
    rw [update_self, mem_unique hk hk']
  · have hi' := hi.resolve_right hix
    rw [hplace' i hi']
    exact hplace i k' hi' hs hk'

/-- **INSERT_AT** of an index whose key no member has. -/
theorem insertAt_new (hC : Lawful C) (hx : x < n) (hnew : ¬ member x) (hk : key x = some k)
    (hmiss : ∀ i k', member i → key i = some k' → C.equal k k' = false)
    (hapart : ∀ i, member i → key i ≠ some k) :
    ∃ t', insertAt C key t x = some (t', x) ∧
      Holds C key t' n (fun i => member i ∨ i = x) stale := by
  obtain ⟨place, hb, hlt, hplace⟩ := h.chains
  obtain ⟨p, hp⟩ := h.head (C.hash k)
  obtain ⟨prev, hseek⟩ := hb.seek_miss (b := C.hash k % t.bucket.length) hp (fun i hi _ => by
    show hasKey C key k i = some false
    obtain ⟨k', hk'⟩ := h.keys i hi
    unfold hasKey
    rw [hk', map_some, hmiss i k' hi hk'])
  -- the buckets grow first
  obtain ⟨t1, hgrow, hholds, hnb⟩ : ∃ t1, (match C.kind with
      | .idx1 => if t.maxload ≤ t.nUsed then rehash C key t (C.grow t.nUsed + 1) else some t
      | .idx2 => some t) = some t1 ∧ Holds C key t1 n member stale ∧ 1 < t1.bucket.length := by
    cases hkind : C.kind with
    | idx1 =>
      have hge := nextPrime_ge (C.grow t.nUsed + 1)
      dsimp only
      split
      · unfold rehash
        by_cases hsame : t.bucket.length = nextPrime (C.grow t.nUsed + 1)
        · rw [if_neg (not_not_intro hsame)]
          exact ⟨t, rfl, h, by omega⟩
        · obtain ⟨link, bucket, hrel, hblen, -, hh⟩ := relink_holds (h.toMarked hC.tail_pos)
            hC.tail_pos h.apart (nextPrime (C.grow t.nUsed + 1)) (by omega)
            (fun heq => by rw [hkind] at heq; cases heq)
          rw [if_pos hsame, hrel]
          refine ⟨_, rfl, (hh _ _).mono (fun i hi => hi.elim), ?_⟩
          show 1 < bucket.length
          omega
      next hload =>
        refine ⟨t, rfl, h, h.buckets.resolve_right ?_⟩
        rintro ⟨-, -, hzero⟩
        exact hload (hzero ▸ zero_le _)
    | idx2 =>
      refine ⟨t, rfl, h, h.buckets.resolve_right ?_⟩
      rintro ⟨heq, -, -⟩
      rw [hkind] at heq
      cases heq
  obtain ⟨p1, hp1⟩ := hholds.head (C.hash k)
  refine ⟨_, ?_, hholds.push hnb hx hnew hk hp1 hapart (t1.nUsed + 1)⟩
  unfold insertAt seekIn
  rw [hk, bind_some, hp, bind_some, hseek, bind_some,
    if_neg (not_not_intro rfl), hgrow, bind_some, hp1]
  rfl

end

/-- **ERASE_I** of an index that is not in the table. -/
theorem eraseI_absent (h : Holds C key t n member stale) (hx : x < n) (hnot : ¬ member x) :
    eraseI C key t x = some t := by
  unfold eraseI
  rw [h.unmarked x (hx.trans_le h.size) hnot, bind_some, if_pos rfl]

end GoldHashIdx
