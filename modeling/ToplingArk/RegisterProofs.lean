import ToplingArk.GoldHashIdxProofs

/-! # StateRegister — the registered states of a builder

    A builder keeps one state of every kind in its register and asks it for a registered
    state with the same stored form as a given one.  The register holds state ids only; it
    reads the states through the hash and equality functions of the automaton, so each of
    its functions gets the states as an argument.  `none` is a failed sanity check or a read
    of a state that is not in use. -/

namespace OnflyMinimize

open GoldHashIdx Option

variable {K : Type}

/-- What a builder needs: the members of a `StateRegister`. -/
structure Register (K : Type) where
  Reg : Type
  empty : Reg
  resizeParallelHashtab : (Nat → Option K) → Reg → Nat → Option Reg
  findOrAdd : (Nat → Option K) → Reg → Nat → Option (Reg × Nat × Bool)
  erase : (Nat → Option K) → Reg → Nat → Option Reg

/-- What a builder relies on, for states whose stored forms are good: the register holds
    exactly the listed states, for the state ids below `n`.  A register of bounded size
    fails when it would have to take one more state. -/
structure LawfulRegister (R : Register K) (Good : K → Prop) (limit : Nat) (room : Option Nat) where
  Holds : (Nat → Option K) → R.Reg → Nat → List Nat → Prop
  start : ∀ {key n}, 0 < n → n ≤ limit →
    ∃ r, R.resizeParallelHashtab key R.empty n = some r ∧ Holds key r n []
  congr : ∀ {key key' r n l}, Holds key r n l → (∀ i ∈ l, key' i = key i) → Holds key' r n l
  resize : ∀ {key r n n' l}, Holds key r n l → n ≤ n' → n' ≤ limit →
    ∃ r', R.resizeParallelHashtab key r n' = some r' ∧ Holds key r' n' l
  find_old : ∀ {key r n l x y k}, Holds key r n l → x < n → x ∉ l → key x = some k → Good k →
    y ∈ l → key y = some k → R.findOrAdd key r x = some (r, y, false)
  find_new : ∀ {key r n l x k}, Holds key r n l → x < n → x ∉ l → l.Nodup → key x = some k →
    Good k → (∀ y ∈ l, key y ≠ some k) → (∀ m ∈ room, l.length < m) →
    ∃ r', R.findOrAdd key r x = some (r', x, true) ∧ Holds key r' n (x :: l)
  find_full : ∀ {key r n l x k}, Holds key r n l → x < n → x ∉ l → l.Nodup → key x = some k →
    Good k → (∀ y ∈ l, key y ≠ some k) → (∃ m ∈ room, m ≤ l.length) →
    R.findOrAdd key r x = none
  erase_absent : ∀ {key r n l x k}, Holds key r n l → x < n → x ∉ l → key x = some k → Good k →
    (∀ y ∈ l, key y ≠ some k) → R.erase key r x = some r

/-! ## The parallel register -/

/-- `Base_Parallel_Register::find_or_add`. -/
def findOrAdd (C : Config K) (key : Nat → Option K) (t : Idx) (stateId : Nat) :
    Option (Idx × Nat × Bool) :=
  (isDeleted C t stateId).bind (fun deleted =>
    if deleted then (insertAt C key t stateId).map (fun r => (r.1, r.2, r.2 == stateId))
    else some (t, stateId, false))

/-- `Base_Parallel_Register`. -/
def parallelRegister (C : Config K) : Register K where
  Reg := Idx
  empty := new C
  resizeParallelHashtab := resize C
  findOrAdd := findOrAdd C
  erase := eraseI C

section Parallel

variable {C : Config K} {key : Nat → Option K} {t : Idx} {n : Nat} {member stale : Nat → Prop}
  {k : K}

variable {x : Nat} (hC : Lawful C) (h : Holds C key t n member stale) (hlt : x < n)
  (hx : ¬ member x)

include hC h hlt hx

/-- A key that is not there is added. -/
theorem findOrAdd_absent :
    findOrAdd C key t x = (insertAt C key t x).map (fun r => (r.1, r.2, r.2 == x)) := by
  obtain ⟨b, hb, hiff⟩ := h.isDeleted_eq hC.tail_pos hlt
  obtain rfl : b = true := hiff.mpr hx
  unfold findOrAdd
  rw [hb, bind_some, if_pos rfl]

/-- **FIND_OR_ADD** of a state with the stored form of a member. -/
theorem findOrAdd_old {y : Nat} (hk : key x = some k) (hy : member y) (hky : key y = some k)
    (hstale : ¬ stale y)
    (hequal : ∀ i k', member i → key i = some k' → (C.equal k k' = true ↔ k = k')) :
    findOrAdd C key t x = some (t, y, false) := by
  have hne : y ≠ x := by
    rintro rfl
    exact hx hy
  rw [findOrAdd_absent hC h hlt hx, insertAt_old h hk hy hky hstale hequal, map_some,
    beq_false_of_ne hne]

/-- **FIND_OR_ADD** of a state that is new to the register. -/
theorem findOrAdd_new (hk : key x = some k)
    (hequal : ∀ i k', member i → key i = some k' → (C.equal k k' = true ↔ k = k'))
    (hapart : ∀ i, member i → key i ≠ some k) :
    ∃ t', findOrAdd C key t x = some (t', x, true) ∧
      Holds C key t' n (fun i => member i ∨ i = x) stale := by
  have hmiss : ∀ i k', member i → key i = some k' → C.equal k k' = false := by
    intro i k' hi hk'
    refine Bool.eq_false_iff.mpr (fun heq => hapart i hi ?_)
    rw [hk', (hequal i k' hi hk').mp heq]
  obtain ⟨t', hins, hholds⟩ := insertAt_new h hC hlt hx hk hmiss hapart
  refine ⟨t', ?_, hholds⟩
  rw [findOrAdd_absent hC h hlt hx, hins, map_some, beq_self_eq_true]

end Parallel

/-- **THE PARALLEL REGISTER** meets what a builder relies on, whatever the hash function is;
    it is never full. -/
def parallel_lawful {C : Config K} (hC : Lawful C) {Good : K → Prop}
    (hequal : ∀ k k', Good k → Good k' → (C.equal k k' = true ↔ k = k')) :
    LawfulRegister (parallelRegister C) Good C.delmark none where
  Holds := fun key t n l => Holds C key t n (· ∈ l) (fun _ => False) ∧
    ∀ i ∈ l, ∀ k, key i = some k → Good k
  start := by
    intro key n hpos hn
    obtain ⟨t, ht, hh⟩ := new_resize_holds hC hpos hn
    refine ⟨t, ht, ?_, fun i hi => absurd hi List.not_mem_nil⟩
    have hnil : (fun i : Nat => i ∈ ([] : List Nat)) = fun _ => False := by
      funext i
      exact eq_false List.not_mem_nil
    rw [hnil]
    exact hh
  congr := by
    rintro key key' t n l ⟨h, hgood⟩ hkey
    refine ⟨h.congr hkey, fun i hi k hk => ?_⟩
    rw [hkey i hi] at hk
    exact hgood i hi k hk
  resize := by
    rintro key t n n' l ⟨h, hgood⟩ hn hlimit
    obtain ⟨t', ht', hh⟩ := resize_holds hC h hn hlimit
    exact ⟨t', ht', hh, hgood⟩
  find_old := by
    rintro key t n l x y k ⟨h, hgood⟩ hlt hx hk hkg hy hky
    exact findOrAdd_old hC h hlt hx hk hy hky (fun hf => hf)
      (fun i k' hi hk' => hequal k k' hkg (hgood i hi k' hk'))
  find_new := by
    rintro key t n l x k ⟨h, hgood⟩ hlt hx - hk hkg hapart -
    obtain ⟨t', ht', hh⟩ := findOrAdd_new hC h hlt hx hk
      (fun i k' hi hk' => hequal k k' hkg (hgood i hi k' hk')) hapart
    refine ⟨t', ht', ?_, fun i hi k' hk' => ?_⟩
    · have hcons : (fun i : Nat => i ∈ x :: l) = fun i => i ∈ l ∨ i = x := by
        funext i
        rw [List.mem_cons, or_comm]
      rw [hcons]
      exact hh
    · rcases List.mem_cons.mp hi with rfl | hi
      · rw [← mem_unique hk hk']
        exact hkg
      · exact hgood i hi k' hk'
  find_full := by
    rintro key t n l x k h hlt hx hnodup hk hkg hapart ⟨m, hm, -⟩
    cases hm
  erase_absent := by
    rintro key t n l x k ⟨h, -⟩ hlt hx - - -
    exact eraseI_absent h hlt hx

end OnflyMinimize
