import ActorScript.Constant

/-! # The world a script lives in

Everything that code can refer to: classes with their members and states, global
constants, line specials and sounds. Names are found without regard to letter
case.
-/

namespace ActorScript

structure FieldFlags where
  isPrivate : Bool := false
  isDeprecated : Bool := false
  isStatic : Bool := false
  isReadonly : Bool := false
  deriving DecidableEq, Repr

structure Field where
  name : String
  ty : Ty
  offset : Nat
  flags : FieldFlags
  deriving DecidableEq, Repr

inductive FunctionKind where
  | static | method | action
  deriving DecidableEq, Repr

/-- Pointer arguments passed ahead of the declared parameters. -/
def FunctionKind.implicitArgs : FunctionKind → Nat
  | .static => 0
  | .method => 1
  | .action => 3

structure Signature where
  name : String
  kind : FunctionKind
  params : List Ty
  returns : List Ty
  owner : ClassId
  deriving DecidableEq, Repr

inductive Member where
  | const (value : Constant)
  | field (field : Field)
  | function (signature : Signature)

/-- Name a member was declared with; a constant is known by its key only. -/
def Member.name : Member → String
  | .const _ => ""
  | .field f => f.name
  | .function f => f.name

structure Class where
  name : String
  parent : Option ClassId := none
  /-- Bytes an instance takes. -/
  size : Nat := 0
  /-- Members by folded name. -/
  members : List (String × Member) := []
  /-- First states by folded label. -/
  labels : List (String × StateId) := []
  firstState : Nat := 0
  ownedStates : Nat := 0

structure State where
  owner : ClassId
  label : String
  frame : Nat
  deriving DecidableEq, Repr

/-- An action of the map that takes a number of integers. -/
structure LineSpecial where
  name : String
  number : Int32
  minArgs : Nat
  maxArgs : Nat
  deriving DecidableEq, Repr

structure World where
  classes : Array Class := #[]
  states : Array State := #[]
  /-- Global constants by folded name. -/
  globals : List (String × Constant) := []
  /-- Names of global constants, in the order of their declarations. -/
  globalNames : List String := []
  specials : List LineSpecial := []
  sounds : List String := []

/-- Puts a value under a key, in place of an earlier one. -/
def putByKey (key : String) (value : α) : List (String × α) → List (String × α)
  | [] => [(key, value)]
  | (k, v) :: rest => if k == key then (key, value) :: rest else (k, v) :: putByKey key value rest

def Class.member? (c : Class) (name : String) : Option Member :=
  c.members.lookup (Text.fold name)

def Class.label? (c : Class) (label : String) : Option StateId :=
  c.labels.lookup label

namespace World

def empty : World := {}

def class? (w : World) (id : ClassId) : Option Class :=
  w.classes[id]?

def findClass (w : World) (name : String) : Option ClassId :=
  w.classes.findIdx? fun c => Text.sameName c.name name

def className (w : World) (id : ClassId) : String :=
  (w.class? id).elim "" Class.name

def parent? (w : World) (id : ClassId) : Option ClassId :=
  (w.class? id).bind Class.parent

/-- A class and its first `limit - 1` ancestors, nearest first. -/
def lineageWithin (w : World) : Nat → ClassId → List ClassId
  | 0, _ => []
  | limit + 1, c =>
      match w.parent? c with
      | none => [c]
      | some p => c :: w.lineageWithin limit p

/-- A class and all its ancestors, nearest first. No chain of parents is longer than the
number of classes. -/
def lineage (w : World) (c : ClassId) : List ClassId :=
  w.lineageWithin w.classes.size c

def descends (w : World) (c ancestor : ClassId) : Bool :=
  (w.lineage c).contains ancestor

/-- Nearest member of that name in a class and its ancestors, with the class that has it. -/
def findMember (w : World) (c : ClassId) (name : String) : Option (Member × ClassId) :=
  (w.lineage c).findSome? fun a => ((w.class? a).bind (·.member? name)).map (·, a)

def ownNames (w : World) (c : ClassId) : List String :=
  ((w.class? c).elim [] Class.members).map fun (key, m) => if m.name.isEmpty then key else m.name

def memberNames (w : World) (c : ClassId) : List String :=
  (w.lineage c).flatMap w.ownNames

def global? (w : World) (name : String) : Option Constant :=
  w.globals.lookup (Text.fold name)

def special? (w : World) (name : String) : Option LineSpecial :=
  w.specials.find? fun s => Text.sameName s.name name

/-- Number of a sound from one; zero is no sound. -/
def soundId (w : World) (name : String) : Int32 :=
  match w.sounds.findIdx? (Text.sameName · name) with
  | some i => Int32.ofNat (i + 1)
  | none => 0

def soundName (w : World) (id : Int32) : String :=
  if id ≤ 0 then "" else (w.sounds[id.toInt.toNat - 1]?).getD ""

def state? (w : World) (id : StateId) : Option State :=
  w.states[id]?

/-- Whether a state was declared by the class itself. -/
def ownsState (w : World) (c : ClassId) (id : StateId) : Bool :=
  match w.class? c with
  | some cls => cls.firstState ≤ id && id < cls.firstState + cls.ownedStates
  | none => false

/-- State of a folded label in a class or its nearest ancestor that has it. -/
def labelState? (w : World) (c : ClassId) (label : String) : Option StateId :=
  (w.lineage c).findSome? fun a => (w.class? a).bind (·.label? label)

/-- Finds a state by a dotted path of label names. Unless the match has to be exact, the
longest beginning of the path that is a label counts. -/
def findState (w : World) (c : ClassId) (names : List String) (exact : Bool) : Option StateId :=
  let depths := if exact then [names.length] else (List.range' 1 names.length).reverse
  if names.isEmpty then none
  else depths.findSome? fun depth =>
    w.labelState? c (Text.fold (".".intercalate (names.take depth)))

end World

end ActorScript
