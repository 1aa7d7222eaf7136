import ToplingArk.AutomataProofs
import ToplingArk.RunProofs

/-! # AutomataTpl — saving and loading

    `save_au` writes the first free state and their number, `load_au` reads both and keeps
    neither, and the number of transitions is not written at all.  The memory pool is
    written and read as a whole, with its free lists. -/

namespace AutomataSave

open Automata Runs List Option

/-- The states with `transition_num`. -/
structure Au where
  store : Store
  transitionNum : BitVec 64
  deriving DecidableEq

/-- A constructed automaton. -/
def Au.init (P : StateTp) : Au := ⟨Store.init P, 0⟩

/-- The calls that change an automaton. -/
inductive Op
  | newState
  | delState (s : Nat)
  | addMove (source t ch : Nat)
  | delMove (s ch : Nat)
  deriving DecidableEq

variable (P : StateTp)

/-- One call and what it returns; `add_move` returns the target that was there before. -/
def Au.call (A : Au) : Op → Option (Au × Option Nat)
  | .newState => (A.store.newState P).map (fun r => ({ A with store := r.1 }, some r.2))
  | .delState s => (A.store.state? s).bind (fun x => (A.store.delState P s).map (fun st =>
      (⟨st, A.transitionNum - BitVec.ofNat 64 x.moves.length⟩, none)))
  | .addMove source t ch => (A.store.addMoveImp P source t ch false).map (fun r =>
      (⟨r.1, if r.2 = none then A.transitionNum + 1 else A.transitionNum⟩, r.2))
  | .delMove s ch => (A.store.state? s).bind (fun x => (A.store.delMove P s ch).map (fun st =>
      (⟨st, A.transitionNum - BitVec.ofNat 64 x.moves.length +
        BitVec.ofNat 64 (x.delMove P ch).moves.length⟩, none)))

/-- The automaton after a call. -/
def Au.step (A : Au) (op : Op) : Option Au := (A.call P op).map Prod.fst

/-- What the calls return. -/
def Au.results : Au → List Op → Option (List (Option Nat))
  | _, [] => some []
  | A, op :: ops => (A.call P op).bind (fun r => (results r.1 ops).map (r.2 :: ·))

/-- What `save_au` writes. -/
structure Image where
  nStates : Nat
  firstFreeState : Nat
  numFreeStates : Nat
  pool : Pool
  states : List Cell

/-- `save_au` -/
def Au.saveAu (A : Au) : Image :=
  ⟨A.store.cells.length, A.store.firstFreeState, A.store.numFreeStates, A.store.pool, A.store.cells⟩

/-- `load_au`: `n_firstFreeState` and `n_numFreeStates` are read only. -/
def Au.loadAu (A : Au) (data : Image) : Au :=
  { A with store := { A.store with pool := data.pool, cells := data.states.take data.nStates } }

/-- The other automaton has the same language and the same counts, every sequence of calls
    returns the same, and none of them is given a used state. -/
structure Restores (A B : Au) : Prop where
  language : ∀ w, (B.store.dfa P).accepts 0 w = (A.store.dfa P).accepts 0 w
  total : B.store.totalStates = A.store.totalStates
  used : B.store.numUsedStates = A.store.numUsedStates
  free : B.store.numFreeStates = A.store.numFreeStates
  transitions : B.transitionNum = A.transitionNum
  results : ∀ ops, B.results P ops = A.results P ops
  unused : ∀ ops C, run (Au.step P) B ops = some C →
    ∀ C' s, C.call P .newState = some (C', some s) → C.store.state? s = none

variable {P} {A : Au}

/-- What `new_state` returns was not in use. -/
theorem newState_unused {C' : Au} {s : Nat} (h : A.call P .newState = some (C', some s)) :
    A.store.state? s = none := by
  obtain ⟨r, hr, heq⟩ := map_eq_some_iff.mp h
  obtain rfl : r.2 = s := some.inj (congrArg Prod.snd heq)
  unfold Store.newState at hr
  unfold Store.state?
  split at hr
  · split at hr
    · cases hr
    · rw [← some.inj hr, getElem?_eq_none le_rfl]
      rfl
  · obtain ⟨p, hp, rfl⟩ := map_eq_some_iff.mp hr
    obtain ⟨c, hc, hnext⟩ := bind_eq_some_iff.mp hp
    cases c with
    | used _ => cases hnext
    | free _ => exact congrArg (bind · _) hc

/-- A call of `new_state` that returned found a free state or a place behind the last one. -/
theorem newState_room {A : Store} {r : Store × Nat} (h : FreeOk P A)
    (hnew : A.newState P = some r) : A.numUsedStates < P.maxState := by
  have hbound := h.bound
  have hle := h.numFree_le
  unfold Store.numUsedStates
  unfold Store.newState at hnew
  split at hnew
  · split at hnew
    · cases hnew
    · omega
  · rename_i hfirst
    obtain ⟨l, hchain, -, hlen, -⟩ := h.free
    cases l with
    | nil => exact absurd hchain.symm hfirst
    | cons x l =>
      rw [length_cons] at hlen
      omega

/-- Rewriting a state leaves the free list alone. -/
theorem rewrite_free {A B : Store} {i : Nat} {s s' old : State} (h : FreeOk P A)
    (hi : A.state? i = some s) (hB : A.rewrite P i old s' = some B) : FreeOk P B := by
  obtain ⟨pool, -, rfl⟩ := map_eq_some_iff.mp hB
  have hput := put_free h hi s'
  exact ⟨hput.bound, hput.free⟩

/-- Every call keeps the free list. -/
theorem step_free {op : Op} {B : Au} (h : FreeOk P A.store) (hstep : A.step P op = some B) :
    FreeOk P B.store := by
  obtain ⟨r, hr, rfl⟩ := map_eq_some_iff.mp hstep
  cases op with
  | newState =>
    obtain ⟨r', hr', rfl⟩ := map_eq_some_iff.mp hr
    obtain ⟨st, i, hnew, hfree, -⟩ := newState_free h (newState_room h hr')
    obtain rfl := mem_unique hnew hr'
    exact hfree
  | delState s =>
    obtain ⟨x, hx, hr⟩ := bind_eq_some_iff.mp hr
    obtain ⟨st, hst, rfl⟩ := map_eq_some_iff.mp hr
    obtain ⟨st', hdel, hfree, -⟩ := delState_free h hx
    obtain rfl := mem_unique hdel hst
    exact hfree
  | addMove source t ch =>
    obtain ⟨r', hr', rfl⟩ := map_eq_some_iff.mp hr
    obtain ⟨x, hx, hr'⟩ := bind_eq_some_iff.mp hr'
    obtain ⟨st, hst, rfl⟩ := map_eq_some_iff.mp hr'
    exact rewrite_free h hx hst
  | delMove s ch =>
    obtain ⟨x, hx, hr⟩ := bind_eq_some_iff.mp hr
    obtain ⟨st, hst, rfl⟩ := map_eq_some_iff.mp hr
    rw [Store.delMove, hx, bind_some] at hst
    -- the release changes the pool only
    have hfree : FreeOk P { A.store with pool := A.store.pool.release s (x.blockLen P) } :=
      ⟨h.bound, h.free⟩
    exact rewrite_free hfree hx hst

/-- **LOADING WHAT WAS SAVED** gives the automaton back exactly if it has no free states and
    no transitions. -/
theorem load_save_iff {ops : List Op} (hrun : run (Au.step P) (Au.init P) ops = some A) :
    Restores P A ((Au.init P).loadAu A.saveAu) ↔
      A.store.numFreeStates = 0 ∧ A.transitionNum = 0 := by
  have hstates : A.saveAu.states.take A.saveAu.nStates = A.store.cells := take_length
  constructor
  · intro h
    exact ⟨h.free.symm, h.transitions.symm⟩
  · rintro ⟨hfree, htrans⟩
    have hinv : ∀ ops B, run (Au.step P) (Au.init P) ops = some B → FreeOk P B.store :=
      run_invariant (init_ok P).freeOk (fun _ _ _ => step_free)
    obtain ⟨l, hchain, -, hlen, -⟩ := (hinv ops A hrun).free
    obtain rfl : l = [] := eq_nil_of_length_eq_zero (hlen.trans hfree)
    have hload : (Au.init P).loadAu A.saveAu = A := by
      unfold Au.loadAu
      rw [hstates]
      obtain ⟨⟨cells, first, num, pool⟩, trans⟩ := A
      obtain rfl : num = 0 := hfree
      obtain rfl : trans = 0 := htrans
      obtain rfl : first = P.nilState := hchain
      rfl
    rw [hload]
    exact ⟨fun _ => rfl, rfl, rfl, rfl, rfl, fun _ => rfl, fun _ _ _ _ _ => newState_unused⟩

/-- A state is made and deleted: the next state after the load is not the one the automaton
    itself would make. -/
theorem load_save_deleted :
    ∃ A, run (Au.step .state32) (Au.init .state32) [.newState, .delState 1] = some A ∧
      A.store.numFreeStates = 1 ∧
      ((Au.init .state32).loadAu A.saveAu).store.numFreeStates = 0 ∧
      A.results .state32 [.newState] = some [some 1] ∧
      ((Au.init .state32).loadAu A.saveAu).results .state32 [.newState] = some [some 2] :=
  ⟨_, rfl, rfl, rfl, rfl, rfl⟩

/-- Two states without transitions. -/
theorem load_save_two :
    ∃ A, run (Au.step .state32) (Au.init .state32) [.newState] = some A ∧
      Restores .state32 A ((Au.init .state32).loadAu A.saveAu) :=
  ⟨_, rfl, (load_save_iff (rfl : run _ _ [Op.newState] = some _)).mpr ⟨rfl, rfl⟩⟩

end AutomataSave
