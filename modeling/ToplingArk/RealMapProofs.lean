import ToplingArk.GoldHashRunProofs
import ToplingArk.RegisterProofs

/-! # A register of state ids in a gold_hash_tab

    `Real_Map_Register` keeps the registered state ids as the elements of a `gold_hash_tab`
    whose hash and equality functions read the states.  It reserves memory for twice as many
    elements whenever it is full, which a link type of `b` bits allows up to `2 ^ (b - 1)`
    elements. -/

namespace OnflyMinimize

open GoldHash List Option Nat

variable {K : Type}

/-- The table of a register: elements are state ids, keys are the states they stand for. -/
def mapTraits (w : LinkTp) (hash : K → BitVec 64) (equal : K → K → Bool) (key : Nat → Option K) :
    Traits (Option K) Nat where
  link := w
  hashBits := 64
  copy := .fast
  hash := fun o => o.elim 0 (fun k => (hash k).toNat)
  equal := fun a b => (a.bind (fun a => b.map (fun b => equal a b))).getD false
  extract := key

/-- `Real_Map_Register::find_or_add`. -/
def mapFindOrAdd (w : LinkTp) (hash : K → BitVec 64) (equal : K → K → Bool)
    (key : Nat → Option K) (t : Tab Nat) (stateId : Nat) : Option (Tab Nat × Nat × Bool) :=
  (insertI (mapTraits w hash equal key) t stateId).bind (fun r =>
    if r.2.2 then some (r.1, stateId, true)
    else (r.1.elemAt r.2.1).map (fun eqStateId => (r.1, eqStateId, false)))

/-- `Real_Map_Register`. -/
def realMapRegister (w : LinkTp) (hash : K → BitVec 64) (equal : K → K → Bool) : Register K where
  Reg := Tab Nat
  empty := init (mapTraits w hash equal (fun _ => none))
  resizeParallelHashtab := fun _ t _ => some t
  findOrAdd := mapFindOrAdd w hash equal
  erase := fun key t stateId => (erase (mapTraits w hash equal key) t (key stateId)).map Prod.fst

/-! ## Only the keys of the elements matter -/

section Congr

variable {Key Elem : Type} {T T' : Traits Key Elem} {t : Tab Elem}

/-- Only hash values and keys of the elements matter. -/
theorem wellFormed_congr (h : WellFormed T t) (hlink : T'.link = T.link) (hhash : T'.hash = T.hash)
    (hbits : T'.hashBits = T.hashBits)
    (hkey : ∀ e, Cell.elem e ∈ t.data → T'.extract e = T.extract e) : WellFormed T' t := by
  have hplace : ∀ i, Live t i → place T' t i = place T t i := by
    rintro i ⟨e, he⟩
    rw [place_eq he, place_eq he, hhash, hkey e (mem_of_getElem? he)]
  refine { h with bound := ?_, start := ?_, marked := ?_, keys := ?_,
                  hashes := fun e he => ?_, free := ?_, chains := ?_ }
  · rw [hlink]
    exact h.bound
  · rw [hlink]
    exact h.start
  · rw [hlink]
    exact h.marked
  · refine h.keys.imp_of_mem (fun {c c'} hc hc' hne e e' he he' => ?_)
    subst he he'
    rw [hkey e hc, hkey e' hc']
    exact hne e e' rfl rfl
  · unfold Traits.Fits
    rw [hhash, hbits, hkey e he]
    exact h.hashes e he
  · rw [hlink]
    exact h.free
  · rw [hlink]
    exact h.chains.congr (fun _ _ => rfl) (fun _ => Iff.rfl) hplace

variable {equal : Key → Key → Bool}

/-- Only comparisons with elements matter. -/
theorem hasKey_congr {k : Key}
    (hequal : ∀ e, Cell.elem e ∈ t.data → T.equal k (T.extract e) = equal k (T.extract e)) :
    hasKey T t k = hasKey { T with equal := equal } t k := by
  funext i
  unfold hasKey
  cases he : t.elemAt i with
  | none => rfl
  | some e =>
    rw [map_some, map_some, hequal e (mem_of_getElem? (elemAt_eq_some_iff.mp he))]

/-- The equality function is only asked about the key and the keys of the elements. -/
theorem insertI_congr {x : Elem} (hequal : ∀ e, Cell.elem e ∈ t.data →
      T.equal (T.extract x) (T.extract e) = equal (T.extract x) (T.extract e)) :
    insertI T t x = insertI { T with equal := equal } t x := by
  unfold insertI
  rw [hasKey_congr hequal]
  rfl

theorem erase_congr {k : Key}
    (hequal : ∀ e, Cell.elem e ∈ t.data → T.equal k (T.extract e) = equal k (T.extract e)) :
    erase T t k = erase { T with equal := equal } t k := by
  unfold erase
  rw [hasKey_congr hequal]
  rfl

end Congr

/-! ## Reserving memory -/

section Room

variable {Key Elem : Type} {T : Traits Key Elem} {t t' : Tab Elem} {n slot : Nat}

/-- The reserved memory behind one more element. -/
def grown (w : LinkTp) (nElem maxElem : Nat) : Nat :=
  if nElem = maxElem then (if nElem = 0 then 1 else w.twice nElem) else maxElem

/-- Reserving changes the room only. -/
theorem reserveNodes_counts {cap : Nat} (h : reserveNodes T t cap = some t')
    (hcap : cap ≠ t.nElem) : t'.freelistSize = t.freelistSize ∧ t'.maxElem = cap := by
  unfold reserveNodes at h
  split at h
  · cases h
  split at h
  · cases h
  · split at h
    · rw [← some.inj h]
      exact ⟨rfl, rfl⟩
    · rename_i hsame
      rw [not_and_or, not_not, not_not] at hsame
      rw [← some.inj h]
      exact ⟨rfl, (hsame.resolve_right hcap).symm⟩

/-- More than a link can tell is not reserved. -/
theorem reserve_init_none (T : Traits Key Elem) (hn : T.link.delmark < n) :
    reserve T (init T : Tab Elem) n = none := by
  have hnodes : reserveNodes T (init T : Tab Elem) n = none := by
    show (if n < 0 then none else if T.link.delmark < n then none else _) = _
    rw [if_neg (not_lt_zero n), if_pos hn]
  unfold reserve
  rw [hnodes]
  rfl

/-- **RESERVE** for a new table. -/
theorem reserve_init (T : Traits Key Elem) (hn : n ≤ T.link.delmark) :
    ∃ t : Tab Elem, reserve T (init T) n = some t ∧ WellFormed T t ∧ t.data = [] ∧
      t.freelistSize = 0 ∧ t.maxElem = n := by
  have hwf : WellFormed T ({ init T with maxElem := n } : Tab Elem) :=
    { init_wf T with fits := zero_le _, bound := hn }
  have hnodes : reserveNodes T (init T) n = some ({ init T with maxElem := n } : Tab Elem) := by
    show (if n < 0 then none else if T.link.delmark < n then none else if n ≠ 0 ∧ n ≠ 0 then _ else
      some _) = _
    rw [if_neg (not_lt_zero n), if_neg hn.not_gt]
    by_cases hzero : n = 0
    · subst hzero
      rfl
    · rw [if_pos ⟨hzero, hzero⟩]
  obtain ⟨t, hrehash, hwf', hsame, -⟩ := rehash_wf hwf (n * 256 % 2 ^ 64 / 179 + 1)
  refine ⟨t, ?_, hwf', hsame.data, hsame.freelistSize, hsame.maxElem⟩
  unfold reserve
  rw [hnodes]
  exact congrArg (Option.map Prod.fst) hrehash

variable {e : Elem}

theorem store_counts {b : Nat} (h : store t slot b e = some t') :
    t'.freelistSize = t.freelistSize ∧ t'.maxElem = t.maxElem := by
  unfold store at h
  split at h
  · cases h
  · obtain ⟨p, -, rfl⟩ := map_eq_some_iff.mp h
    exact ⟨rfl, rfl⟩

theorem LinkTp.twice_ne {w : LinkTp} (hn : n ≠ 0) (hle : n ≤ w.delmark) : w.twice n ≠ n := by
  have hlt : n < 2 ^ w.bits := by
    unfold LinkTp.delmark LinkTp.tail at hle
    omega
  unfold LinkTp.twice
  split
  · omega
  · by_cases hwrap : 2 * n < 2 ^ w.bits
    · rw [mod_eq_of_lt hwrap]
      omega
    · rw [mod_eq_sub_mod (not_lt.mp hwrap), mod_eq_of_lt (by omega)]
      omega

variable (hT : Lawful T) (h : WellFormed T t) (hfit : T.Fits (T.extract e))
  (hk : ∀ e', Cell.elem e' ∈ t.data → T.extract e' ≠ T.extract e) (hzero : t.freelistSize = 0)

include hT h hfit hk hzero

/-- What an insertion does to the counters. -/
theorem insertI_counts (hins : insertI T t e = some (t', slot, true)) :
    t'.freelistSize = 0 ∧ t'.maxElem = grown T.link t.nElem t.maxElem := by
  obtain ⟨t1, hwf1, hsame1, -, hrun⟩ := insertI_alloc hT h hfit hk
  have hn1 : t1.nElem = t.nElem := hsame1.length
  have hmax1 : t1.maxElem = t.maxElem := hsame1.maxElem
  have hzero1 : t1.freelistSize = 0 := hsame1.freelistSize.trans hzero
  rw [hrun] at hins
  obtain ⟨ts, halloc, hmap⟩ := bind_eq_some_iff.mp hins
  obtain ⟨t3, hstore, heq⟩ := map_eq_some_iff.mp hmap
  obtain ⟨hfree3, hmax3⟩ := store_counts hstore
  unfold riskSlotAlloc at halloc
  rw [if_pos (.inl hzero1)] at halloc
  obtain ⟨t4, hres, hts⟩ := map_eq_some_iff.mp halloc
  rw [← hts] at hfree3 hmax3
  rw [← (Prod.mk.inj heq).1, hfree3, hmax3, ← hn1, ← hmax1]
  unfold grown
  by_cases hfull : t1.nElem = t1.maxElem
  · rw [if_pos hfull] at hres ⊢
    have hcap : (if t1.nElem = 0 then 1 else T.link.twice t1.nElem) ≠ t1.nElem := by
      split
      · omega
      · rename_i hne
        exact LinkTp.twice_ne hne hwf1.nElem_le
    obtain ⟨hfree4, hmax4⟩ := reserveNodes_counts hres hcap
    exact ⟨hfree4.trans hzero1, hmax4⟩
  · rw [if_neg hfull] at hres ⊢
    rw [← some.inj hres]
    exact ⟨hzero1, rfl⟩

/-- **INSERT_I** into a table without a free list takes the next slot. -/
theorem insertI_append (hroom : t.nElem < t.maxElem ∨ 2 * t.nElem ≤ T.link.delmark) :
    ∃ t', insertI T t e = some (t', t.data.length, true) ∧ WellFormed T t' ∧
      t'.data = t.data ++ [.elem e] ∧ t'.freelistSize = 0 ∧
      t'.maxElem = grown T.link t.nElem t.maxElem := by
  obtain ⟨t1, hwf1, hsame1, hnb, hrun⟩ := insertI_alloc hT h hfit hk
  have hn1 : t1.nElem = t.nElem := hsame1.length
  have hzero1 : t1.freelistSize = 0 := hsame1.freelistSize.trans hzero
  obtain ⟨t2, hres, hwf2, hdata2, hbucket2, hlt2⟩ := alloc_fresh hwf1 (by
    rw [hn1, hsame1.maxElem]
    exact hroom)
  have hslot : t2.nElem = t.data.length := by
    rw [← hsame1.data, ← hdata2]
    exact hwf2.lengths.symm
  have halloc : riskSlotAlloc T t1 =
      some ({ t2 with data := t2.data ++ [.raw], link := t2.link ++ [T.link.tail] }, t2.nElem) := by
    unfold riskSlotAlloc
    rw [if_pos (.inl hzero1), hres]
    rfl
  have hnb2 : t2.nBucket = t1.nBucket := congrArg length hbucket2
  obtain ⟨t', hstore, hwf', -, -⟩ := store_wf (push_allocated hwf2 hlt2) (hnb2 ▸ hnb) hfit
    (fun e' hmem => by
      rcases mem_append.mp hmem with hmem | hmem
      · rw [hdata2, hsame1.data] at hmem
        exact hk e' hmem
      · cases mem_singleton.mp hmem)
  have hins : insertI T t e = some (t', t.data.length, true) := by
    rw [hrun, halloc, ← hslot, ← hnb2]
    exact congrArg (Option.map (fun t => (t, t2.nElem, true))) hstore
  obtain ⟨hfree, hmax⟩ := insertI_counts hT h hfit hk hzero hins
  refine ⟨t', hins, hwf', ?_, hfree, hmax⟩
  unfold store at hstore
  split at hstore
  · cases hstore
  · obtain ⟨p, -, rfl⟩ := map_eq_some_iff.mp hstore
    rw [hslot, hdata2, hsame1.data, set_append_right _ _ le_rfl, Nat.sub_self]
    rfl

/-- No memory can be reserved for one more element. -/
theorem insertI_full (hne : t.nElem ≠ 0) (hfull : t.nElem = t.maxElem)
    (hwrap : T.link.twice t.nElem < t.nElem) : insertI T t e = none := by
  obtain ⟨t1, -, hsame1, -, hrun⟩ := insertI_alloc hT h hfit hk
  have hn1 : t1.nElem = t.nElem := hsame1.length
  have hmax1 : t1.maxElem = t.maxElem := hsame1.maxElem
  have hzero1 : t1.freelistSize = 0 := hsame1.freelistSize.trans hzero
  have halloc : riskSlotAlloc T t1 = none := by
    unfold riskSlotAlloc reserveNodes
    rw [if_pos (.inl hzero1), hn1, if_pos (hfull.trans hmax1.symm), if_neg hne, if_pos hwrap]
    rfl
  rw [hrun, halloc]
  rfl

end Room

/-! ## The register -/

section RealMap

variable {w : LinkTp} {hash : K → BitVec 64} {equal : K → K → Bool} {Good : K → Prop}
  {key : Nat → Option K} {t : Tab Nat} {l : List Nat}

/-- The elements of the table are the registered states; the reserved memory has been doubled
    some number of times. -/
structure MapHolds (w : LinkTp) (hash : K → BitVec 64) (equal : K → K → Bool) (Good : K → Prop)
    (key : Nat → Option K) (t : Tab Nat) (l : List Nat) : Prop where
  wf : WellFormed (mapTraits w hash equal key) t
  elems : ∀ e, Cell.elem e ∈ t.data ↔ e ∈ l
  free : t.freelistSize = 0
  doubled : t.maxElem = 0 ∨ ∃ j, t.maxElem = 2 ^ j
  good : ∀ i ∈ l, ∃ k, key i = some k ∧ Good k

/-- Equality of the stored forms instead of the equality function. -/
noncomputable def exactEqual (a b : Option K) : Bool := @decide (a = b) (Classical.propDecidable _)

/-- Compared exactly, the traits are lawful. -/
theorem exact_lawful (w : LinkTp) (hash : K → BitVec 64) (equal : K → K → Bool)
    (key : Nat → Option K) :
    Lawful { mapTraits w hash equal key with equal := exactEqual } where
  equal_iff := fun a b => @decide_eq_true_iff (a = b) (Classical.propDecidable _)

theorem mapTraits_fits (w : LinkTp) (hash : K → BitVec 64) (equal : K → K → Bool)
    (key : Nat → Option K) (o : Option K) : (mapTraits w hash equal key).Fits o := by
  show o.elim 0 (fun k => (hash k).toNat) < 2 ^ 64
  cases o with
  | none => exact Nat.two_pow_pos 64
  | some k => exact (hash k).isLt

theorem exact_wf (h : WellFormed (mapTraits w hash equal key) t) :
    WellFormed { mapTraits w hash equal key with equal := exactEqual } t :=
  wellFormed_congr h rfl rfl rfl (fun _ _ => rfl)

variable {k : K} {x : Nat}

/-- For states with good stored forms the equality function is that equality. -/
theorem equal_eq_exactEqual (hgood : ∀ e, Cell.elem e ∈ t.data → ∃ k, key e = some k ∧ Good k)
    (hequal : ∀ k k', Good k → Good k' → (equal k k' = true ↔ k = k')) (hx : key x = some k)
    (hk : Good k) (e : Nat) (he : Cell.elem e ∈ t.data) :
    (mapTraits w hash equal key).equal (key x) (key e) = exactEqual (key x) (key e) := by
  obtain ⟨k', hk', hg⟩ := hgood e he
  rw [hx, hk']
  show equal k k' = @decide _ (Classical.propDecidable _)
  rw [Bool.eq_iff_iff, hequal k k' hk hg, @decide_eq_true_iff _ (Classical.propDecidable _)]
  exact ⟨fun heq => congrArg some heq, some.inj⟩

section

variable (h : MapHolds w hash equal Good key t l)

include h

theorem MapHolds.exact_wf : WellFormed { mapTraits w hash equal key with equal := exactEqual } t :=
  OnflyMinimize.exact_wf h.wf

theorem MapHolds.equal_eq (hequal : ∀ k k', Good k → Good k' → (equal k k' = true ↔ k = k'))
    (hx : key x = some k) (hk : Good k) (e : Nat) (he : Cell.elem e ∈ t.data) :
    (mapTraits w hash equal key).equal (key x) (key e) = exactEqual (key x) (key e) :=
  equal_eq_exactEqual (fun e he => h.good e ((h.elems e).mp he)) hequal hx hk e he

theorem MapHolds.nElem_eq (hnodup : l.Nodup) : t.nElem = l.length := by
  have hnd : t.elems.Nodup := by
    unfold Tab.elems
    rw [nodup_iff_pairwise_ne, pairwise_filterMap]
    refine h.wf.keys.imp (fun {c c'} hne e he e' he' heq => ?_)
    rw [Cell.elem?_eq_some_iff] at he he'
    exact hne e e' he he' (congrArg _ heq)
  have hperm : t.elems.Perm l :=
    (perm_ext_iff_of_nodup hnd hnodup).mpr (fun e => mem_elems.trans (h.elems e))
  rw [h.wf.nElem_eq, h.free, zero_add, hperm.length_eq]

/-- A key that no listed state has is in no cell. -/
theorem MapHolds.absent (hx : key x = some k) (hnew : ∀ y ∈ l, key y ≠ some k) :
    ∀ e, Cell.elem e ∈ t.data → key e ≠ key x := by
  intro e he
  rw [hx]
  exact hnew e ((h.elems e).mp he)

end

theorem LinkTp.half_lt (w : LinkTp) : 2 ^ (w.bits - 1) ≤ w.delmark ∧
    w.delmark < 2 ^ (w.bits - 1) + 2 ^ (w.bits - 1) := by
  cases w <;> decide

variable (h : MapHolds w hash equal Good key t l)
  (hequal : ∀ k k', Good k → Good k' → (equal k k' = true ↔ k = k'))

include h hequal

/-- **FIND_OR_ADD** of a state that is new to the register. -/
theorem mapFindOrAdd_new (hnodup : l.Nodup) (hx : key x = some k) (hk : Good k)
    (hnew : ∀ y ∈ l, key y ≠ some k) (hroom : l.length < 2 ^ (w.bits - 1)) :
    ∃ t', mapFindOrAdd w hash equal key t x = some (t', x, true) ∧
      MapHolds w hash equal Good key t' (x :: l) := by
  have hlaw := exact_lawful w hash equal key
  have hwf := h.exact_wf
  have hlen := h.nElem_eq hnodup
  have habsent := h.absent hx hnew
  have hhalf := LinkTp.half_lt w
  have hfits : t.nElem ≤ t.maxElem := h.wf.fits
  -- the room has always been doubled, so it is a power of two
  have hroom' : HasRoom { mapTraits w hash equal key with equal := exactEqual } t := by
    refine .inr ?_
    rcases lt_or_eq_of_le hfits with hlt | heq
    · exact .inl hlt
    refine .inr ?_
    show 2 * t.nElem ≤ w.delmark
    rcases h.doubled with hzero | ⟨j, hj⟩
    · omega
    · -- one more doubling stays within half of the link type
      have hlt : 2 ^ j < 2 ^ (w.bits - 1) := by omega
      have hj' : j < w.bits - 1 := (Nat.pow_lt_pow_iff_right (by decide)).mp hlt
      have hle : 2 ^ (j + 1) ≤ 2 ^ (w.bits - 1) := Nat.pow_le_pow_right (by decide) hj'
      rw [pow_succ] at hle
      omega
  have hfit := mapTraits_fits w hash equal key (key x)
  obtain ⟨t', slot, hins, hwf', -, hmem⟩ := insertI_new hlaw hwf hfit habsent hroom'
  obtain ⟨hfree, hmax⟩ := insertI_counts hlaw hwf hfit habsent h.free hins
  refine ⟨t', ?_, { wf := wellFormed_congr hwf' rfl rfl rfl (fun _ _ => rfl), elems := fun e => ?_,
                    free := hfree, doubled := ?_, good := fun i hi => ?_ }⟩
  -- the code's comparison is exact on the keys that are there
  · unfold mapFindOrAdd
    rw [insertI_congr (h.equal_eq hequal hx hk), hins]
    rfl
  · rw [hmem e, h.elems e, mem_cons, or_comm]
  · rw [hmax]
    unfold grown
    split
    next hfull =>
      split
      · exact .inr ⟨0, rfl⟩
      rename_i hzero
      rcases h.doubled with hz | ⟨j, hj⟩
      · exact absurd (hfull.trans hz) hzero
      have hdouble : 2 * t.nElem ≤ w.delmark := by
        rcases hroom' with ⟨hfree, -⟩ | hlt | hle
        · exact absurd h.free hfree
        · exact absurd hfull hlt.ne
        · exact hle
      refine .inr ⟨j + 1, ?_⟩
      show w.twice t.nElem = _
      rw [LinkTp.twice_eq hdouble, hfull, hj, pow_succ, mul_comm]
    · exact h.doubled
  · rcases mem_cons.mp hi with rfl | hi
    · exact ⟨k, hx, hk⟩
    · exact h.good i hi

/-- **FIND_OR_ADD** of a state with the stored form of a registered one. -/
theorem mapFindOrAdd_old {y : Nat} (hx : key x = some k) (hk : Good k) (hy : y ∈ l)
    (hky : key y = some k) : mapFindOrAdd w hash equal key t x = some (t, y, false) := by
  obtain ⟨i, hi⟩ := mem_iff_getElem?.mp ((h.elems y).mpr hy)
  have hins := insertI_old (exact_lawful w hash equal key) h.exact_wf hi
    (show key y = key x from hky.trans hx.symm)
  unfold mapFindOrAdd
  rw [insertI_congr (h.equal_eq hequal hx hk), hins, bind_some]
  rw [elemAt_eq_some_iff.mpr hi]
  rfl

/-- **FULL**: the reserved memory cannot be doubled any more. -/
theorem mapFindOrAdd_full (hnodup : l.Nodup) (hw : 32 ≤ w.bits) (hx : key x = some k) (hk : Good k)
    (hnew : ∀ y ∈ l, key y ≠ some k) (hroom : 2 ^ (w.bits - 1) ≤ l.length) :
    mapFindOrAdd w hash equal key t x = none := by
  have hlen := h.nElem_eq hnodup
  have hhalf := LinkTp.half_lt w
  have hfits : t.nElem ≤ t.maxElem := h.wf.fits
  have hbound : t.maxElem ≤ w.delmark := h.wf.bound
  have hmax : t.maxElem = 2 ^ (w.bits - 1) := by
    rcases h.doubled with hzero | ⟨j, hj⟩
    · omega
    · have hlt : 2 ^ j < 2 ^ (w.bits - 1 + 1) := by
        rw [pow_succ]
        omega
      have hle := Nat.lt_succ_iff.mp ((Nat.pow_lt_pow_iff_right (by decide)).mp hlt)
      have := Nat.pow_le_pow_right (n := 2) (by decide) hle
      omega
  have hn : t.nElem = 2 ^ (w.bits - 1) := by omega
  have hwrap : w.twice t.nElem = 0 := by
    unfold LinkTp.twice
    have hsucc : 2 * 2 ^ (w.bits - 1) = 2 ^ w.bits := by
      rw [mul_comm, ← pow_succ]
      congr 1
      omega
    rw [if_neg (by omega), hn, hsucc, mod_self]
  have hins := insertI_full (exact_lawful w hash equal key) h.exact_wf
    (mapTraits_fits w hash equal key _) (h.absent hx hnew) h.free (by omega) (by omega)
    (show w.twice t.nElem < t.nElem by omega)
  unfold mapFindOrAdd
  rw [insertI_congr (h.equal_eq hequal hx hk), hins]
  rfl

end RealMap

/-- **THE REAL MAP REGISTER** meets what a builder relies on; it holds up to half as many
    states as its link type has values. -/
def realMap_lawful {w : LinkTp} (hw : 32 ≤ w.bits) (hash : K → BitVec 64)
    {equal : K → K → Bool} {Good : K → Prop} (limit : Nat)
    (hequal : ∀ k k', Good k → Good k' → (equal k k' = true ↔ k = k')) :
    LawfulRegister (realMapRegister w hash equal) Good limit (some (2 ^ (w.bits - 1))) where
  Holds := fun key t _ l => MapHolds w hash equal Good key t l
  start := by
    intro key n _ _
    have hnone : ∀ e, Cell.elem e ∉ (init (mapTraits w hash equal key) : Tab Nat).data :=
      fun e => not_mem_nil
    refine ⟨init (mapTraits w hash equal key), rfl, ?_⟩
    exact { wf := init_wf _, free := rfl, doubled := .inl rfl
            elems := fun e => ⟨fun he => absurd he (hnone e), fun he => absurd he not_mem_nil⟩
            good := fun i hi => absurd hi not_mem_nil }
  congr := by
    intro key key' t n l h hkey
    refine { h with
      wf := wellFormed_congr h.wf rfl rfl rfl (fun e he => hkey e ((h.elems e).mp he))
      good := fun i hi => ?_ }
    rw [hkey i hi]
    exact h.good i hi
  resize := fun h _ _ => ⟨_, rfl, h⟩
  find_old := fun h _ _ hx hk hy hky => mapFindOrAdd_old h hequal hx hk hy hky
  find_new := fun h _ _ hnodup hx hk hnew hroom =>
    mapFindOrAdd_new h hequal hnodup hx hk hnew (hroom _ (mem_some_self _))
  find_full := by
    rintro key t n l x k h - - hnodup hx hk hnew ⟨m, hm, hle⟩
    obtain rfl := mem_some.mp hm
    exact mapFindOrAdd_full h hequal hnodup hw hx hk hnew hle
  erase_absent := by
    rintro key t n l x k h - - hx hk hnew
    have hlaw := exact_lawful w hash equal key
    obtain ⟨prev, hseek⟩ := seekIn_absent hlaw h.exact_wf (h.absent hx hnew)
    show (erase (mapTraits w hash equal key) t (key x)).map Prod.fst = some t
    rw [erase_congr (h.equal_eq hequal hx hk)]
    unfold erase
    dsimp only at hseek ⊢
    rw [hseek, bind_some, if_pos rfl]
    rfl

end OnflyMinimize
