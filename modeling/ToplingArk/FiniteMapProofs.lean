import Mathlib.Data.Set.Card
import Mathlib.Data.Set.Finite.Basic

/-! # Finite maps as partial functions

    The value of a key, if it has one, and the operations of a container: inserting a new
    key, erasing, and keeping only some entries.  The size is the number of keys with a
    value. -/

namespace FiniteMap

variable {K V : Type} [DecidableEq K] (m : K → Option V) {k : K}

/-- A key that is already there keeps its value. -/
def insertNew (k : K) (v : V) : K → Option V :=
  if m k = none then Function.update m k (some v) else m

/-- The map without a key. -/
def erase (k : K) : K → Option V := Function.update m k none

/-- Only the entries whose value passes stay. -/
def retain (p : V → Bool) : K → Option V := fun k => (m k).filter p

/-- The number of keys. -/
noncomputable def size : Nat := Set.ncard { k | m k ≠ none }

/-- Inserting keeps what is there. -/
theorem insertNew_eq_some (k k' : K) (v v' : V) :
    insertNew m k v k' = some v' ↔ m k' = some v' ∨ (m k = none ∧ k' = k ∧ v' = v) := by
  unfold insertNew
  by_cases hk : m k = none
  · rw [if_pos hk]
    by_cases hkk : k' = k
    · subst hkk
      rw [Function.update_self, hk]
      simp [eq_comm]
    · simp [hkk]
  · simp [hk]

/-- Erasing takes one key out. -/
theorem erase_eq_some (k k' : K) (v : V) : erase m k k' = some v ↔ m k' = some v ∧ k' ≠ k := by
  unfold erase
  by_cases hkk : k' = k
  · subst hkk
    simp
  · simp [hkk]

omit [DecidableEq K] in
theorem retain_eq_some (p : V → Bool) (k : K) (v : V) :
    retain m p k = some v ↔ m k = some v ∧ p v = true :=
  Option.filter_eq_some_iff

/-- A list of the keys counts them. -/
theorem size_eq {m : K → Option V} {l : List K} (hnodup : l.Nodup)
    (hmem : ∀ k, k ∈ l ↔ m k ≠ none) : size m = l.length := by
  have hset : { k | m k ≠ none } = (l.toFinset : Set K) := by
    ext k
    rw [List.coe_toFinset]
    exact (hmem k).symm
  unfold size
  rw [hset, Set.ncard_coe_finset, List.toFinset_card_of_nodup hnodup]

/-- A new key makes a map larger by one. -/
theorem size_update_some {m : K → Option V} {v : V} (hfin : { k | m k ≠ none }.Finite)
    (hk : m k = none) : size (Function.update m k (some v)) = size m + 1 := by
  have hset : { k' | Function.update m k (some v) k' ≠ none } = insert k { k' | m k' ≠ none } := by
    ext k'
    by_cases hkk : k' = k
    · subst hkk
      simp
    · simp [hkk]
  have hnot : k ∉ { k' | m k' ≠ none } := fun hmem => hmem hk
  unfold size
  rw [hset, Set.ncard_insert_of_notMem hnot hfin]

/-- Erasing makes a map smaller by one. -/
theorem size_erase {m : K → Option V} (hfin : { k | m k ≠ none }.Finite) (hk : m k ≠ none) :
    size (erase m k) + 1 = size m := by
  have hset : { k' | erase m k k' ≠ none } = { k' | m k' ≠ none } \ {k} := by
    ext k'
    unfold erase
    by_cases hkk : k' = k
    · subst hkk
      simp
    · simp [hkk]
  unfold size
  rw [hset, Set.ncard_sdiff_singleton_add_one hk hfin]

end FiniteMap
