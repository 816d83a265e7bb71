import ActorScript.Bytecode.RegisterPool

/-! # Chunks

The finished code of a function with its constant pools.
-/

namespace ActorScript

/-- Services of the machine that code reaches through a pooled address. -/
inductive Service where
  | random | frandom | random2 | nameToClass | callLineSpecial
  | handleRuntimeState | findSingleNameState | findMultiNameState
  deriving DecidableEq, Repr

namespace Service

def all : List Service :=
  [random, frandom, random2, nameToClass, callLineSpecial,
    handleRuntimeState, findSingleNameState, findMultiNameState]

def word : Service → String
  | random => "Random"
  | frandom => "FRandom"
  | random2 => "Random2"
  | nameToClass => "NameToClass"
  | callLineSpecial => "CallLineSpecial"
  | handleRuntimeState => "HandleRuntimeState"
  | findSingleNameState => "FindSingleNameState"
  | findMultiNameState => "FindMultiNameState"

def symbol (service : Service) : String :=
  "Builtin" ++ service.word

end Service

inductive Pooled where
  | null
  | state (id : StateId) (label : String)
  | cls (name : String)
  | native (service : Service)
  | function (name : String)
  /-- A random number generator; the empty name is the common one. -/
  | generator (name : String)
  deriving DecidableEq, Repr

structure Chunk where
  name : String := ""
  code : Array UInt32 := #[]
  ints : Array Int32 := #[]
  /-- Floats by their bits. -/
  floats : Array UInt64 := #[]
  strings : Array String := #[]
  addresses : Array Pooled := #[]
  /-- Names, which the integer pool refers to by position. -/
  names : Array String := #[]
  registers : Banks Nat := .replicate 0
  returns : List String := []
  deriving Repr, Inhabited

end ActorScript
