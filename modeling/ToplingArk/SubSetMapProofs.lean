import ToplingArk.ExploreProofs
import ToplingArk.GoldHashProofs

/-! # SubSetHashMap — numbering subsets of states

    The subsets stand one behind the other in one array; a node has the place where its subset
    begins and the link to the next node of its bucket, and one more node ends the last
    subset.  Places and links have the width of a state id.  `none` is a read outside an
    array or a walk that does not end. -/

namespace SubSetMap

open HashChain Explore List Option Nat

/-- One step of the hash functions of subsets and pairs. -/
def mix (h : BitVec 64) : BitVec 64 := h * 31 + ((h * 31) <<< 3 ||| (h * 31) >>> 61)

/-- The hash of a subset. -/
def uintArrayHash (a : List Nat) : Nat :=
  (a.foldl (fun h x => mix (h + BitVec.ofNat 64 x)) 0).toNat

/-- `SubSetHashMap` -/
structure SubSetHashMap where
  index : List Nat
  hlink : List Nat
  data : List Nat
  bucket : List Nat
  deriving DecidableEq, Repr

variable (w : Nat) {keys : List (List Nat)} {b : Nat}

/-- `nil_link`: all bits set. -/
def nilLink : Nat := 2 ^ w - 1

variable (m : SubSetHashMap)

/-- `size` -/
def SubSetHashMap.size : Nat := m.index.length - 1

/-- `data[beg]` to `data[end]`. -/
def SubSetHashMap.range (beg len : Nat) : Option (List Nat) :=
  if beg + len ≤ m.data.length then some ((m.data.drop beg).take len) else none

/-- The place and the length of a subset, in `size_t`. -/
def SubSetHashMap.extent (hit : Nat) : Option (Nat × Nat) :=
  m.index[hit]?.bind (fun y0 => m.index[hit + 1]?.map (fun y1 =>
    (y0, (y1 + 2 ^ 64 - y0) % 2 ^ 64)))

/-- `uint_array_equal` with the subset of a node. -/
def SubSetHashMap.hasSubset (ss : List Nat) (hit : Nat) : Option Bool :=
  (m.extent hit).bind (fun y =>
    if ss.length ≠ y.2 then some false else (m.range y.1 y.2).map (fun yy => decide (ss = yy)))

/-- The states of a subset, as the loop from its place to the next one reads them. -/
def SubSetHashMap.subset (i : Nat) : Option (List Nat) :=
  m.index[i]?.bind (fun beg => m.index[i + 1]?.bind (fun fin =>
    if fin < beg then some [] else m.range beg (fin - beg)))

/-- More buckets, and all subsets linked again. -/
def SubSetHashMap.resizeBucket (n0 : Nat) : Option SubSetHashMap :=
  let nBucket := GoldHash.nextPrime n0
  (relink (fun _ _ => some true)
    (fun j => (m.extent j).bind (fun y =>
      (m.range y.1 y.2).map (fun yy => uintArrayHash yy % nBucket)))
    m.size m.hlink (replicate nBucket (nilLink w))).map (fun s =>
      -- links are stored with the width of a state id
      { m with hlink := s.1.map (· % 2 ^ w), bucket := s.2.map (· % 2 ^ w) })

/-- The constructor. -/
def SubSetHashMap.new (nstates : Nat) : Option SubSetHashMap :=
  SubSetHashMap.resizeBucket w { index := [0], hlink := [nilLink w], data := [], bucket := [] }
    (nstates * 3 / 2)

/-- The new node, before it is linked. -/
def SubSetHashMap.append (ss : List Nat) : SubSetHashMap :=
  { m with data := m.data ++ ss
           index := m.index ++ [(m.data.length + ss.length) % 2 ^ w]
           hlink := m.hlink ++ [nilLink w] }

/-- `find_or_add_subset` -/
def SubSetHashMap.findOrAddSubset (ss : List Nat) : Option (SubSetHashMap × Nat) :=
  let hMod := uintArrayHash ss % m.bucket.length
  m.bucket[hMod]?.bind (fun p =>
    (seek (nilLink w) m.hlink (m.hasSubset ss) (m.hlink.length + 1) none p).bind (fun r =>
      if r.2 ≠ nilLink w then some (m, r.2)
      else
        let hit := m.size
        let m' := m.append w ss
        if m'.index.length < m.bucket.length * 3 / 4 then
          some ({ m' with hlink := m'.hlink.set hit p
                          bucket := m.bucket.set hMod (hit % 2 ^ w) }, hit)
        else (SubSetHashMap.resizeBucket w m' (m.bucket.length + 1)).map (fun m => (m, hit))))

/-- The subsets as a table of keys. -/
def subsets : Table (List Nat) where
  Tab := SubSetHashMap
  size := SubSetHashMap.size
  at? := SubSetHashMap.subset
  insert := SubSetHashMap.findOrAddSubset w

/-! ## Places -/

variable {w}

/-- The place where a subset begins. -/
def offset (keys : List (List Nat)) (i : Nat) : Nat := (keys.take i).flatten.length

variable {i : Nat} {k ss : List Nat}

/-- Subsets lie one behind the other. -/
theorem offset_succ (hk : keys[i]? = some k) : offset keys (i + 1) = offset keys i + k.length := by
  unfold offset
  rw [take_add_one, hk]
  simp

theorem offset_le (keys : List (List Nat)) (i : Nat) : offset keys i ≤ keys.flatten.length := by
  unfold offset
  have := congrArg (fun l => (flatten l).length) (take_append_drop i keys)
  rw [flatten_append, length_append] at this
  omega

theorem offset_append (ss : List Nat) (hi : i ≤ keys.length) :
    offset (keys ++ [ss]) i = offset keys i := by
  unfold offset
  rw [take_append_of_le_length hi]

/-- What the map stores, apart from the links. -/
structure Stored (w : Nat) (m : SubSetHashMap) (keys : List (List Nat)) : Prop where
  data : m.data = keys.flatten
  nodes : m.index.length = keys.length + 1
  links : m.hlink.length = keys.length + 1
  index : ∀ i, i ≤ keys.length → m.index[i]? = some (offset keys i)
  fits : keys.flatten.length < 2 ^ w
  few : keys.length < 2 ^ w
  width : w ≤ 64

variable {m} {keys : List (List Nat)}

theorem Stored.size_eq (h : Stored w m keys) : m.size = keys.length := by
  unfold SubSetHashMap.size
  rw [h.nodes]
  rfl

section

variable (h : Stored w m keys) (hk : keys[i]? = some k)

include h hk

theorem Stored.range_eq : m.range (offset keys i) k.length = some k := by
  have hnext := offset_succ hk
  have hle := offset_le keys (i + 1)
  unfold SubSetHashMap.range
  rw [h.data, if_pos (by omega)]
  have hsplit : keys.flatten = (keys.take i).flatten ++ (k ++ (keys.drop (i + 1)).flatten) := by
    obtain ⟨hlt, hget⟩ := List.getElem_of_getElem? hk
    conv_lhs => rw [← take_append_drop i keys, drop_eq_getElem_cons hlt, hget]
    rw [flatten_append, flatten_cons]
  rw [hsplit, offset, drop_left, take_left]

theorem Stored.extent_eq : m.extent i = some (offset keys i, k.length) := by
  have hlt := (List.getElem_of_getElem? hk).1
  have hnext := offset_succ hk
  have hle := offset_le keys (i + 1)
  have hfits := h.fits
  have hpow : 2 ^ w ≤ 2 ^ 64 := Nat.pow_le_pow_right (by decide) h.width
  unfold SubSetHashMap.extent
  rw [h.index i hlt.le, bind_some, h.index (i + 1) hlt, map_some, hnext]
  rw [show offset keys i + k.length + 2 ^ 64 - offset keys i = k.length + 2 ^ 64 by omega,
    add_mod_right, mod_eq_of_lt (by omega)]

/-- A stored subset is read back. -/
theorem Stored.subset_eq : m.subset i = some k := by
  have hlt := (List.getElem_of_getElem? hk).1
  have hnext := offset_succ hk
  unfold SubSetHashMap.subset
  rw [h.index i hlt.le, bind_some, h.index (i + 1) hlt, bind_some,
    if_neg (by omega), hnext, Nat.add_sub_cancel_left, h.range_eq hk]

/-- The comparison with a stored subset. -/
theorem Stored.hasSubset_eq (ss : List Nat) : m.hasSubset ss i = some (decide (ss = k)) := by
  unfold SubSetHashMap.hasSubset
  rw [h.extent_eq hk, bind_some]
  by_cases hlen : ss.length = k.length
  · rw [if_neg (not_not_intro hlen), h.range_eq hk, map_some]
  · rw [if_pos hlen]
    have hne : ss ≠ k := by
      rintro rfl
      exact hlen rfl
    rw [decide_eq_false hne]

end

/-! ## Links -/

/-- The bucket of a node. -/
def place (keys : List (List Nat)) (nBucket i : Nat) : Nat :=
  uintArrayHash (keys[i]?.getD []) % nBucket

/-- **THE INVARIANT**: every node is on the chain of its bucket. -/
structure Holds (w : Nat) (m : SubSetHashMap) (keys : List (List Nat)) : Prop extends
    Stored w m keys where
  nodup : keys.Nodup
  pos : 0 < m.bucket.length
  narrow : ∀ x ∈ m.hlink, x < 2 ^ w
  chains : Buckets (nilLink w) m.hlink m.bucket (fun i => i < keys.length)
    (place keys m.bucket.length)

/-- Links that fit are stored as they are. -/
theorem map_mod_eq {l : List Nat} (h : ∀ x ∈ l, x < 2 ^ w) : l.map (· % 2 ^ w) = l := by
  refine (map_congr_left (fun x hx => ?_)).trans (map_id l)
  exact mod_eq_of_lt (h x hx)

theorem nilLink_lt (w : Nat) : nilLink w < 2 ^ w :=
  sub_lt (Nat.two_pow_pos w) one_pos

/-- A loop that only stores numbers below a bound keeps the bound. -/
theorem relink_lt {keep : List Nat → Nat → Option Bool} {place : Nat → Option Nat} {n : Nat}
    {link heads : List Nat} (hn : n ≤ b) (hlink : ∀ x ∈ link, x < b) (hheads : ∀ x ∈ heads, x < b) :
    ∀ s, relink keep place n link heads = some s → (∀ x ∈ s.1, x < b) ∧ ∀ x ∈ s.2, x < b := by
  induction n with
  | zero =>
    intro s hs
    rw [← some.inj hs]
    exact ⟨hlink, hheads⟩
  | succ n ih =>
    intro s hs
    unfold relink at hs
    rw [range_succ, Runs.run_snoc] at hs
    obtain ⟨s1, hs1, hstep⟩ := bind_eq_some_iff.mp hs
    obtain ⟨h1, h2⟩ := ih (le_of_succ_le hn) s1 hs1
    obtain ⟨k, -, hk⟩ := bind_eq_some_iff.mp hstep
    split at hk
    · obtain ⟨c, -, hc⟩ := bind_eq_some_iff.mp hk
      obtain ⟨p, hp, rfl⟩ := map_eq_some_iff.mp hc
      refine ⟨fun x hx => ?_, fun x hx => ?_⟩
      · rcases mem_or_eq_of_mem_set hx with hx | rfl
        · exact h1 x hx
        · exact h2 x (mem_of_getElem? hp)
      · rcases mem_or_eq_of_mem_set hx with hx | rfl
        · exact h2 x hx
        · exact hn
    · rw [← some.inj hk]
      exact ⟨h1, h2⟩

/-- **RESIZE_BUCKET** puts every node onto the chain of its bucket. -/
theorem resizeBucket_spec (h : Stored w m keys) (hnodup : keys.Nodup)
    (hlinks : ∀ x ∈ m.hlink, x < 2 ^ w) (n0 : Nat) :
    ∃ m', SubSetHashMap.resizeBucket w m n0 = some m' ∧ Holds w m' keys := by
  have hge := GoldHash.nextPrime_ge n0
  have hfew := h.few
  have hstop : ∀ j, j < m.size → j < keys.length → j ≠ nilLink w := by
    unfold nilLink
    omega
  obtain ⟨link, heads, hrun, hllen, hhlen, hbuckets, -⟩ := @relink_spec (nilLink w) m.hlink
    (fun _ _ => some true)
    (fun j => (m.extent j).bind (fun y =>
      (m.range y.1 y.2).map (fun yy => uintArrayHash yy % GoldHash.nextPrime n0)))
    (fun j => j < keys.length) (place keys (GoldHash.nextPrime n0)) (GoldHash.nextPrime n0)
    m.size hstop (by rw [h.size_eq, h.links]; exact le_succ _)
    (fun j hj _ _ => .inl ⟨by rw [h.size_eq] at hj; exact hj, rfl⟩)
    (fun j _ hj => by
      have hk : keys[j]? = some keys[j] := getElem?_eq_getElem hj
      refine ⟨?_, mod_lt _ (by omega)⟩
      rw [h.extent_eq hk, bind_some, h.range_eq hk, place, hk]
      rfl)
  obtain ⟨hl, hh⟩ := relink_lt (h.size_eq.le.trans hfew.le) hlinks
    (fun x hx => by rw [eq_of_mem_replicate hx]; exact nilLink_lt w) _ hrun
  refine ⟨{ m with hlink := link, bucket := heads }, ?_, ?_⟩
  · unfold SubSetHashMap.resizeBucket
    dsimp only
    rw [hrun, map_some]
    rw [map_mod_eq hl, map_mod_eq hh]
  refine { data := h.data, nodes := h.nodes, links := hllen.trans h.links, index := h.index,
           fits := h.fits, few := h.few, width := h.width, nodup := hnodup, pos := ?_,
           narrow := hl, chains := ?_ }
  · show 0 < heads.length
    omega
  · rw [hhlen]
    refine hbuckets.congr (fun _ _ => rfl) (fun x => ?_) (fun _ _ => rfl)
    rw [h.size_eq]
    exact ⟨fun hx => ⟨hx, hx⟩, And.right⟩

/-- A subset is appended. -/
theorem Stored.append (h : Stored w m keys) (hfits : (keys ++ [ss]).flatten.length < 2 ^ w)
    (hfew : (keys ++ [ss]).length < 2 ^ w) : Stored w (m.append w ss) (keys ++ [ss]) := by
  have hflat : (keys ++ [ss]).flatten = keys.flatten ++ ss := by
    rw [flatten_append]
    simp
  refine { data := ?_, nodes := ?_, links := ?_, index := ?_, fits := hfits, few := hfew,
           width := h.width }
  · show m.data ++ ss = _
    rw [h.data, hflat]
  · show (m.index ++ [_]).length = _
    rw [length_append, length_append, h.nodes]
    rfl
  · show (m.hlink ++ [_]).length = _
    rw [length_append, length_append, h.links]
    rfl
  intro i hi
  show (m.index ++ [(m.data.length + ss.length) % 2 ^ w])[i]? = _
  rw [length_append, length_singleton] at hi
  by_cases hlt : i ≤ keys.length
  · rw [getElem?_append_left (by rw [h.nodes]; omega), h.index i hlt, offset_append ss hlt]
  have hi' : i = keys.length + 1 := by omega
  subst hi'
  rw [getElem?_append_right (by rw [h.nodes]), h.nodes, Nat.sub_self]
  unfold offset
  rw [take_of_length_le (by rw [length_append]; exact le_rfl), hflat, h.data]
  rw [hflat] at hfits
  rw [length_append] at hfits ⊢
  rw [mod_eq_of_lt hfits]
  rfl

/-- **THE CONSTRUCTOR** gives an empty map. -/
theorem new_spec (hwidth : w ≤ 64) (nstates : Nat) :
    ∃ m, SubSetHashMap.new w nstates = some m ∧ Holds w m [] := by
  refine resizeBucket_spec { data := rfl, nodes := rfl, links := rfl, index := ?_,
                             fits := Nat.two_pow_pos w, few := Nat.two_pow_pos w,
                             width := hwidth } nodup_nil ?_ _
  · intro i hi
    obtain rfl : i = 0 := le_zero.mp hi
    rfl
  · intro x hx
    rw [mem_singleton.mp hx]
    exact nilLink_lt w

theorem Holds.head (h : Holds w m keys) (ss : List Nat) :
    ∃ p, m.bucket[uintArrayHash ss % m.bucket.length]? = some p :=
  ⟨_, getElem?_eq_getElem (mod_lt _ h.pos)⟩

theorem place_eq {nBucket : Nat} (hk : keys[i]? = some k) :
    place keys nBucket i = uintArrayHash k % nBucket := by
  unfold place
  rw [hk]
  rfl

/-- **FIND_OR_ADD_SUBSET** of a subset in the map. -/
theorem findOrAdd_old (h : Holds w m keys) (hi : keys[i]? = some ss) :
    m.findOrAddSubset w ss = some (m, i) := by
  have hlt := (List.getElem_of_getElem? hi).1
  have hfew := h.few
  obtain ⟨p, hp⟩ := h.head ss
  obtain ⟨prev, q, hseek, -⟩ := h.chains.seek_hit
    (by rw [place_eq hi]; exact hp) hlt
    (show m.hasSubset ss i = some true by rw [h.hasSubset_eq hi, decide_eq_true rfl])
    (fun y hy _ hne => by
      have hk : keys[y]? = some keys[y] := getElem?_eq_getElem hy
      rw [h.hasSubset_eq hk, decide_eq_false]
      rintro rfl
      exact hne ((getElem?_inj hy h.nodup).mp (hk.trans hi.symm)))
  have hne : i ≠ nilLink w := by
    unfold nilLink
    omega
  unfold SubSetHashMap.findOrAddSubset
  dsimp only
  rw [hp, bind_some, hseek, bind_some, if_pos hne]

/-- Heads are links. -/
theorem Holds.head_lt (h : Holds w m keys) {p : Nat} (hp : m.bucket[b]? = some p) : p < 2 ^ w := by
  have hfew := h.few
  obtain ⟨l, hl, -, hmem⟩ := h.chains b p hp
  cases l with
  | nil =>
    obtain rfl : p = nilLink w := hl
    exact nilLink_lt w
  | cons x l =>
    obtain ⟨rfl, -⟩ := hl
    exact lt_trans ((hmem p).mp mem_cons_self).1 hfew

/-- **FIND_OR_ADD_SUBSET** of a new subset. -/
theorem findOrAdd_new (h : Holds w m keys) (hss : ss ∉ keys)
    (hfits : (keys ++ [ss]).flatten.length < 2 ^ w) (hfew : (keys ++ [ss]).length < 2 ^ w) :
    ∃ m', m.findOrAddSubset w ss = some (m', keys.length) ∧ Holds w m' (keys ++ [ss]) := by
  obtain ⟨p, hp⟩ := h.head ss
  have hmiss : ∀ y, y < keys.length → m.hasSubset ss y = some false := by
    intro y hy
    rw [h.hasSubset_eq (getElem?_eq_getElem hy), decide_eq_false]
    rintro rfl
    exact hss (getElem_mem hy)
  obtain ⟨prev, hseek⟩ := h.chains.seek_miss hp (fun y hy _ => hmiss y hy)
  have hstored := h.toStored.append hfits hfew
  have hnodup : (keys ++ [ss]).Nodup := by
    refine nodup_append.mpr ⟨h.nodup, nodup_singleton ss, ?_⟩
    rintro a ha b hb rfl
    exact hss (mem_singleton.mp hb ▸ ha)
  have hlen : keys.length < (m.append w ss).hlink.length := by
    rw [hstored.links, length_append]
    exact lt_succ_of_lt (lt_succ_self _)
  have hnarrow : ∀ x ∈ (m.append w ss).hlink, x < 2 ^ w := by
    intro x hx
    rcases mem_append.mp hx with hx | hx
    · exact h.narrow x hx
    · rw [mem_singleton.mp hx]
      exact nilLink_lt w
  have hself : (keys ++ [ss])[keys.length]? = some ss := by
    rw [getElem?_append_right le_rfl, Nat.sub_self]
    rfl
  have hsmall : keys.length < 2 ^ w := h.few
  unfold SubSetHashMap.findOrAddSubset
  dsimp only
  rw [hp, bind_some, hseek, bind_some, if_neg (not_not_intro rfl), h.size_eq]
  split
  · rw [mod_eq_of_lt hsmall]
    refine ⟨_, rfl, { data := hstored.data, nodes := hstored.nodes, links := ?_,
                      index := hstored.index, fits := hfits, few := hfew, width := h.width,
                      nodup := hnodup, pos := ?_, narrow := ?_, chains := ?_ }⟩
    · rw [length_set]
      exact hstored.links
    · rw [length_set]
      exact h.pos
    · intro x hx
      rcases mem_or_eq_of_mem_set hx with hx | rfl
      · exact hnarrow x hx
      · exact h.head_lt hp
    -- the new node in front of its bucket
    rw [length_set, ← place_eq hself]
    have hold : Buckets (nilLink w) (m.append w ss).hlink m.bucket (fun i => i < keys.length)
        (place (keys ++ [ss]) m.bucket.length) := by
      refine h.chains.congr (fun x hx => ?_) (fun _ => Iff.rfl) (fun x hx => ?_)
      · show (m.hlink ++ [_])[x]? = _
        rw [getElem?_append_left (by rw [h.links]; omega)]
      · unfold place
        rw [getElem?_append_left hx]
    have hne : keys.length ≠ nilLink w := by
      rw [length_append, length_singleton] at hfew
      unfold nilLink
      omega
    refine (hold.push (lt_irrefl _) hne hlen (by rw [place_eq hself]; exact hp)).congr
      (fun _ _ => rfl) (fun x => ?_) (fun _ _ => rfl)
    rw [length_append, length_singleton, Nat.lt_succ_iff_lt_or_eq]
  · obtain ⟨m', hres, hholds⟩ := resizeBucket_spec hstored hnodup hnarrow (m.bucket.length + 1)
    exact ⟨m', by rw [hres, map_some], hholds⟩

/-- The entries and the subsets are fewer than the width of an id can count. -/
def Fits (w : Nat) (keys : List (List Nat)) : Prop :=
  keys.flatten.length < 2 ^ w ∧ keys.length < 2 ^ w

theorem Fits.mono {keys' : List (List Nat)} (hpre : keys <+: keys') (h : Fits w keys') :
    Fits w keys := by
  obtain ⟨l, rfl⟩ := hpre
  obtain ⟨h1, h2⟩ := h
  rw [flatten_append, length_append] at h1
  rw [length_append] at h2
  exact ⟨by omega, by omega⟩

/-- **SUBSETHASHMAP** numbers subsets. -/
def subsets_lawful (w : Nat) : LawfulTable (subsets w) (Fits w) (fun _ => True) where
  Holds := Holds w
  size_eq := fun h => h.size_eq
  at_eq := fun h hk => h.subset_eq hk
  find_old := fun h hk => findOrAdd_old h (getElem?_idxOf hk)
  find_new := fun h hk hok => .inl (findOrAdd_new h hk hok.1 hok.2)
  ok_mono := Fits.mono
  room_mono := fun _ h => h

end SubSetMap
