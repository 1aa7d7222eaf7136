import Mathlib.Data.List.Infix
import Mathlib.Logic.Relation
import ToplingArk.DfaProofs

/-! # Numbering the keys of a graph

    The states of an automaton that is built on the fly are numbered in the order in which
    their keys turn up: a table returns the number of a key, a new one for a new key.  An
    automaton whose states have the numbers of keys, closed under the edges of the keys,
    accepts what the keys accept. -/

namespace Explore

open List

variable {K A : Type} [DecidableEq K] {x : K} {edges : List (A × K)} {i : Nat}
  {succ : K → List (A × K)} {final : K → Bool}

/-- A key gets the next number unless it has one. -/
def addKey (keys : List K) (k : K) : List K := if k ∈ keys then keys else keys ++ [k]

/-- The keys of the edges, one after the other. -/
def addKeys (keys : List K) (edges : List (A × K)) : List K :=
  edges.foldl (fun keys m => addKey keys m.2) keys

/-- The edges with the numbers of the keys. -/
def row (keys : List K) (edges : List (A × K)) : List (A × Nat) :=
  edges.map (fun m => (m.1, keys.idxOf m.2))

variable {keys keys' : List K} {k : K}

theorem prefix_addKey (keys : List K) (k : K) : keys <+: addKey keys k := by
  unfold addKey
  split
  · exact prefix_rfl
  · exact prefix_append _ _

/-- The keys are the old ones and the new one. -/
theorem mem_addKey : x ∈ addKey keys k ↔ x ∈ keys ∨ x = k := by
  unfold addKey
  split
  · rename_i hk
    constructor
    · exact .inl
    · rintro (hx | rfl)
      · exact hx
      · exact hk
  · simp

/-- A key is added once. -/
theorem nodup_addKey (h : keys.Nodup) (k : K) : (addKey keys k).Nodup := by
  unfold addKey
  split
  · exact h
  · rename_i hk
    refine nodup_append.mpr ⟨h, nodup_singleton k, ?_⟩
    rintro a ha b hb rfl
    exact hk (mem_singleton.mp hb ▸ ha)

/-- Old keys keep their places. -/
theorem prefix_addKeys (keys : List K) (edges : List (A × K)) : keys <+: addKeys keys edges := by
  induction edges generalizing keys with
  | nil => exact prefix_rfl
  | cons m edges ih => exact (prefix_addKey keys m.2).trans (ih _)

/-- The keys after all edges of one key. -/
theorem mem_addKeys : x ∈ addKeys keys edges ↔ x ∈ keys ∨ ∃ m ∈ edges, m.2 = x := by
  induction edges generalizing keys with
  | nil => simp [addKeys]
  | cons m edges ih =>
    show x ∈ addKeys (addKey keys m.2) edges ↔ _
    rw [ih, mem_addKey, or_assoc]
    simp only [mem_cons, exists_eq_or_imp, @eq_comm _ x]

theorem nodup_addKeys (h : keys.Nodup) (edges : List (A × K)) : (addKeys keys edges).Nodup := by
  induction edges generalizing keys with
  | nil => exact h
  | cons m edges ih => exact ih (nodup_addKey h m.2)

/-- The number of a key does not change. -/
theorem idxOf_mono (hpre : keys <+: keys') (hk : k ∈ keys) : keys'.idxOf k = keys.idxOf k := by
  obtain ⟨l, rfl⟩ := hpre
  exact idxOf_append_of_mem hk

/-- Nor does the row of its edges. -/
theorem row_mono (hpre : keys <+: keys') (hmem : ∀ m ∈ edges, m.2 ∈ keys) :
    row keys' edges = row keys edges := by
  refine map_congr_left (fun m hm => ?_)
  rw [idxOf_mono hpre (hmem m hm)]

theorem idxOf_snoc (hk : k ∉ keys) : (keys ++ [k]).idxOf k = keys.length := by
  rw [idxOf_append_of_notMem hk]
  simp

theorem getElem?_idxOf (hk : k ∈ keys) : keys[keys.idxOf k]? = some k := by
  have hlt := idxOf_lt_length_iff.mpr hk
  rw [getElem?_eq_getElem hlt, getElem_idxOf]

omit [DecidableEq K] in
theorem getElem?_mono (hpre : keys <+: keys') (hi : i < keys.length) : keys'[i]? = keys[i]? := by
  obtain ⟨l, rfl⟩ := hpre
  exact getElem?_append_left hi

/-! ## Tables -/

/-- A table that numbers keys. -/
structure Table (K : Type) where
  Tab : Type
  size : Tab → Nat
  at? : Tab → Nat → Option K
  insert : Tab → K → Option (Tab × Nat)

/-- The edges are numbered one after the other. -/
def numberAll (T : Table K) : T.Tab → List (A × K) → Option (T.Tab × List (A × Nat))
  | t, [] => some (t, [])
  | t, m :: edges =>
    (T.insert t m.2).bind (fun r =>
      (numberAll T r.1 edges).map (fun q => (q.1, (m.1, r.2) :: q.2)))

/-- What a numbering relies on: the table holds the keys in their order, as long as they are
    `Ok`; it fails only without `Room`. -/
structure LawfulTable (T : Table K) (Ok Room : List K → Prop) where
  Holds : T.Tab → List K → Prop
  size_eq : ∀ {t keys}, Holds t keys → T.size t = keys.length
  at_eq : ∀ {t keys i k}, Holds t keys → keys[i]? = some k → T.at? t i = some k
  find_old : ∀ {t keys k}, Holds t keys → k ∈ keys → T.insert t k = some (t, keys.idxOf k)
  find_new : ∀ {t keys k}, Holds t keys → k ∉ keys → Ok (keys ++ [k]) →
    (∃ t', T.insert t k = some (t', keys.length) ∧ Holds t' (keys ++ [k])) ∨
      (T.insert t k = none ∧ ¬ Room (keys ++ [k]))
  ok_mono : ∀ {keys keys'}, keys <+: keys' → Ok keys' → Ok keys
  room_mono : ∀ {keys keys'}, keys <+: keys' → Room keys' → Room keys

variable {T : Table K} {Ok Room : List K → Prop}

/-- Old or new, a key gets its number while there is room. -/
theorem LawfulTable.insert_spec (H : LawfulTable T Ok Room) {t : T.Tab} (h : H.Holds t keys)
    (k : K) (hok : Ok (addKey keys k)) :
    (∃ t', T.insert t k = some (t', (addKey keys k).idxOf k) ∧ H.Holds t' (addKey keys k)) ∨
      (T.insert t k = none ∧ ¬ Room (addKey keys k)) := by
  unfold addKey at hok ⊢
  by_cases hk : k ∈ keys
  · rw [if_pos hk]
    exact .inl ⟨t, H.find_old h hk, h⟩
  · rw [if_neg hk] at hok ⊢
    rw [idxOf_snoc hk]
    exact H.find_new h hk hok

/-- **NUMBERING** the edges of a key. -/
theorem LawfulTable.numberAll_spec (H : LawfulTable T Ok Room) {t : T.Tab} (h : H.Holds t keys)
    (hok : Ok (addKeys keys edges)) :
    (∃ t', numberAll T t edges = some (t', row (addKeys keys edges) edges) ∧
        H.Holds t' (addKeys keys edges)) ∨
      (numberAll T t edges = none ∧ ¬ Room (addKeys keys edges)) := by
  induction edges generalizing t keys with
  | nil => exact .inl ⟨t, rfl, h⟩
  | cons m edges ih =>
    have hpre : addKey keys m.2 <+: addKeys keys (m :: edges) := prefix_addKeys _ edges
    have hself : m.2 ∈ addKey keys m.2 := mem_addKey.mpr (.inr rfl)
    rcases H.insert_spec h m.2 (H.ok_mono hpre hok) with ⟨t1, hins, h1⟩ | ⟨hnone, hroom⟩
    · rcases ih h1 hok with ⟨t2, hnum, h2⟩ | ⟨hnone, hroom⟩
      · refine .inl ⟨t2, ?_, h2⟩
        show (T.insert t m.2).bind _ = _
        rw [hins, Option.bind_some, hnum, Option.map_some, ← idxOf_mono hpre hself]
        rfl
      · refine .inr ⟨?_, hroom⟩
        show (T.insert t m.2).bind _ = _
        rw [hins, Option.bind_some, hnone]
        rfl
    · refine .inr ⟨?_, fun hr => hroom (H.room_mono hpre hr)⟩
      show (T.insert t m.2).bind _ = _
      rw [hnone]
      rfl

/-! ## The automaton of the keys -/

variable [DecidableEq A]

/-- The automaton whose states are the keys. -/
def keyDfa (succ : K → List (A × K)) (final : K → Bool) : Dfa.Pdfa K A where
  final := final
  next := fun k c => (succ k).lookup c

/-- The keys that the edges lead to. -/
def Reach (succ : K → List (A × K)) : K → K → Prop :=
  Relation.ReflTransGen (fun a b => ∃ c, (c, b) ∈ succ a)

/-- A property of all keys that can be found, in any order. -/
def Within (succ : K → List (A × K)) (root : K) (p : List K → Prop) : Prop :=
  ∀ l : List K, l.Nodup → (∀ k ∈ l, Reach succ root k) → p l

omit [DecidableEq K] in
theorem mem_of_lookup {c : A} (h : edges.lookup c = some k) : (c, k) ∈ edges := by
  induction edges with
  | nil => cases h
  | cons m edges ih =>
    rw [lookup_cons] at h
    split at h
    · rename_i heq
      rw [← Option.some.inj h, beq_iff_eq.mp heq]
      exact mem_cons_self
    · exact mem_cons_of_mem _ (ih h)

omit [DecidableEq K] in
/-- An edge is found by its letter if letters are distinct. -/
theorem lookup_of_mem (hnodup : (edges.map Prod.fst).Nodup) {m : A × K} (hm : m ∈ edges) :
    edges.lookup m.1 = some m.2 := by
  induction edges with
  | nil => cases hm
  | cons e edges ih =>
    obtain ⟨hnew, hrest⟩ := nodup_cons.mp hnodup
    rw [lookup_cons]
    rcases mem_cons.mp hm with rfl | hm
    · rw [beq_self_eq_true]
    · have hne : m.1 ≠ e.1 := fun heq => hnew (heq ▸ mem_map_of_mem hm)
      rw [beq_eq_false_iff_ne.mpr hne]
      exact ih hrest hm

omit [DecidableEq K] in
/-- A word of a key that is found continues a word of the root. -/
theorem accepts_of_reach (hletters : ∀ k, ((succ k).map Prod.fst).Nodup) {root k : K}
    (h : Reach succ root k) {w : List A} (hw : (keyDfa succ final).accepts k w = true) :
    ∃ u, (keyDfa succ final).accepts root u = true := by
  induction h using Relation.ReflTransGen.head_induction_on with
  | refl => exact ⟨w, hw⟩
  | head hstep _ ih =>
    obtain ⟨c, hc⟩ := hstep
    obtain ⟨u, hu⟩ := ih
    refine ⟨c :: u, ?_⟩
    have hnext : (keyDfa succ final).next _ c = some _ := lookup_of_mem (hletters _) hc
    rw [Dfa.accepts_cons_some hnext]
    exact hu

/-- A row leads to the numbers of the keys. -/
theorem lookup_row (keys : List K) (edges : List (A × K)) (c : A) :
    (row keys edges).lookup c = (edges.lookup c).map keys.idxOf := by
  induction edges with
  | nil => rfl
  | cons m edges ih =>
    obtain ⟨c', k'⟩ := m
    show ((c', keys.idxOf k') :: row keys edges).lookup c = _
    rw [lookup_cons, lookup_cons]
    split
    · rfl
    · exact ih

/-- **NUMBERED STATES** accept what their keys accept. -/
theorem accepts_numbered {N : Dfa.Pdfa Nat A}
    (hfinal : ∀ (i : Nat) k, keys[i]? = some k → N.final i = final k)
    (hnext : ∀ (i : Nat) k, keys[i]? = some k → N.next i = fun c => (row keys (succ k)).lookup c)
    (hclosed : ∀ k ∈ keys, ∀ m ∈ succ k, m.2 ∈ keys) (hi : keys[i]? = some k) :
    N.accepts i = (keyDfa succ final).accepts k := by
  refine Dfa.accepts_eq_of_related (R := fun i k => keys[i]? = some k) hfinal ?_ hi
  intro i k c hik
  have hstep : N.next i c = ((succ k).lookup c).map keys.idxOf := by
    rw [hnext i k hik]
    exact lookup_row keys (succ k) c
  show Option.Rel _ (N.next i c) ((succ k).lookup c)
  rw [hstep]
  cases hlook : (succ k).lookup c with
  | none => exact .none
  | some k' =>
    refine .some ?_
    exact getElem?_idxOf (hclosed k (mem_of_getElem? hik) _ (mem_of_lookup hlook))

end Explore
