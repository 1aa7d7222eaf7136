import ToplingArk.AutomataProofs
import ToplingArk.RealMapProofs

/-! # The registers of the state types

    Which table a builder uses follows from the width of the state ids. -/

namespace OnflyMinimize

open Automata GoldHash GoldHashIdx

variable (P : StateTp)

/-- `state_id_t`. -/
def linkTp : LinkTp := if P.ptrBits ≤ 32 then .u32 else .u64

/-- `RegisterTable2` is used for wide state ids that are no multiple of 16 bits. -/
def registerKind : Kind :=
  if 32 < P.ptrBits ∧ P.ptrBits % 16 ≠ 0 then .idx2 else .idx1

/-- The end of chains, by the width of the state ids. -/
def registerTail : Nat :=
  match registerKind P with
  | .idx1 => (linkTp P).tail
  | .idx2 => 2 ^ P.ptrBits - 1

/-- The table of the parallel register; `onfly_hash_hash` is any function of the state. -/
def registerConfig (hash : State → BitVec 64) (grow load : Nat → Nat) : Config State where
  kind := registerKind P
  tail := registerTail P
  hash := fun s => (hash s).toNat
  equal := fun x y => x.onflyEqual P y
  grow := grow
  load := load

/-- Stored forms are compared exactly. -/
theorem registerConfig_lawful (hash : State → BitVec 64) (grow load : Nat → Nat) :
    GoldHashIdx.Lawful (registerConfig P hash grow load) where
  tail_pos := by
    show 0 < registerTail P
    cases P <;> decide
  tail_le := fun _ => by
    show registerTail P ≤ 18446744073709551557
    cases P <;> decide

/-- State ids stay below the marks. -/
theorem maxState_le : P.maxState ≤ registerTail P - 1 := by
  cases P <;> decide

/-- The two registers of a builder. -/
inductive RegisterTp
  | parallel
  | realMap
  deriving DecidableEq, Repr

/-- The register that the type asks for. -/
def registerOf (tp : RegisterTp) (hash : State → BitVec 64) (grow load : Nat → Nat) :
    Register State :=
  match tp with
  | .parallel => parallelRegister (registerConfig P hash grow load)
  | .realMap => realMapRegister (linkTp P) hash (fun x y => x.onflyEqual P y)

/-- How many states the register holds, if that is bounded. -/
def registerRoom : RegisterTp → Option Nat
  | .parallel => none
  | .realMap => some (2 ^ ((linkTp P).bits - 1))

/-- The parallel register is lawful. -/
def parallelOf_lawful (hash : State → BitVec 64) (grow load : Nat → Nat) :
    LawfulRegister (registerOf P .parallel hash grow load) (Ok P) (registerTail P - 1)
      (registerRoom P .parallel) :=
  parallel_lawful (registerConfig_lawful P hash grow load) (fun _ _ hx hy => onflyEqual_iff hx hy)

/-- The map register is lawful. -/
def realMapOf_lawful (hash : State → BitVec 64) {grow load : Nat → Nat} :
    LawfulRegister (registerOf P .realMap hash grow load) (Ok P) P.maxState
      (registerRoom P .realMap) :=
  realMap_lawful (by cases P <;> decide) hash P.maxState (fun _ _ hx hy => onflyEqual_iff hx hy)

end OnflyMinimize
