import ActorScript.Json.Numeral
import ActorScript.Json.Reader
import ActorScript.World.Basic

/-! # Declarations

What an environment text declares, before types and parents are looked up. A
record may be written as an object or as the list of its fields in order; unknown
keys are passed over.
-/

namespace ActorScript

structure FieldDecl where
  name : String
  type : String
  flags : List String := []

structure FunctionDecl where
  name : String
  kind : FunctionKind
  params : List String := []
  returns : List String := []

structure StateDecl where
  label : String
  frames : Nat := 1

structure ClassDecl where
  name : String
  parent : Option String := none
  fields : List FieldDecl := []
  /-- Sorted by name. -/
  constants : List (String × Constant) := []
  functions : List FunctionDecl := []
  states : List StateDecl := []

structure Declarations where
  classes : List ClassDecl := []
  /-- Sorted by name. -/
  constants : List (String × Constant) := []
  specials : List LineSpecial := []
  sounds : List String := []

namespace Json

/-- The fields of a record in the order of `keys`, each with its value if it is given. -/
def record? (keys : List String) : Json → Option (List (Option Json))
  | .obj members =>
      if keys.all fun key => (members.filter (·.1 == key)).length ≤ 1 then
        some (keys.map fun key => members.lookup key)
      else none
  | .arr items =>
      if items.length ≤ keys.length then
        some (items.map some ++ List.replicate (keys.length - items.length) none)
      else none
  | _ => none

def string? : Json → Option String
  | .str text => some text
  | _ => none

def list? (f : Json → Option α) : Json → Option (List α)
  | .arr items => items.mapM f
  | _ => none

def integer? (low high : Int) : Json → Option Int
  | .num text => do
      let value ← (Numeral.ofText text).integer?
      if low ≤ value && value ≤ high then some value else none
  | _ => none

/-- Value of a field that has a default. -/
def orDefault (default : α) (f : Json → Option α) : Option Json → Option α
  | none => some default
  | some j => f j

/-- A number or a text. Integers of 64 bits keep their low 32, other numbers are floats. -/
def constant? : Json → Option Constant
  | .str text => some (.string text)
  | .num text =>
      let n := Numeral.ofText text
      match n.integer? with
      | some value =>
          if Int64.minValue.toInt ≤ value && value ≤ Int64.maxValue.toInt then
            some (.int (Int32.ofInt value))
          else n.toFloat?.map .float
      | none => n.toFloat?.map .float
  | _ => none

/-- Puts a value under its key into a list sorted by key, in place of an earlier one. -/
def putSorted (key : String) (value : α) : List (String × α) → List (String × α)
  | [] => [(key, value)]
  | (k, v) :: rest =>
      if key == k then (key, value) :: rest
      else if key < k then (key, value) :: (k, v) :: rest
      else (k, v) :: putSorted key value rest

/-- Named constants, sorted by name; of a repeated name the last value counts. -/
def constants? : Json → Option (List (String × Constant))
  | .obj members => do
      let values ← members.mapM fun (key, j) => (constant? j).map (key, ·)
      some (values.foldl (fun sorted (key, value) => putSorted key value sorted) [])
  | _ => none

def functionKindNamed? : String → Option FunctionKind
  | "static" => some .static
  | "method" => some .method
  | "action" => some .action
  | _ => none

def functionKind? : Json → Option FunctionKind
  | .str text => functionKindNamed? text
  | .obj [(key, .null)] => functionKindNamed? key
  | _ => none

def parent? : Json → Option (Option String)
  | .null => some none
  | j => j.string?.map some

end Json

open Json

def FieldDecl.ofJson? (j : Json) : Option FieldDecl := do
  let [some name, some type, flags] ← record? ["name", "type", "flags"] j | none
  some ⟨← string? name, ← string? type, ← orDefault [] (list? string?) flags⟩

def FunctionDecl.ofJson? (j : Json) : Option FunctionDecl := do
  let [some name, some kind, params, returns] ← record? ["name", "kind", "params", "returns"] j
    | none
  some ⟨← string? name, ← functionKind? kind, ← orDefault [] (list? string?) params,
    ← orDefault [] (list? string?) returns⟩

def StateDecl.ofJson? (j : Json) : Option StateDecl := do
  let [some label, frames] ← record? ["label", "frames"] j | none
  some ⟨← string? label, (← orDefault 1 (integer? 0 0xffffffff) frames).toNat⟩

def ClassDecl.ofJson? (j : Json) : Option ClassDecl := do
  let [some name, parent, fields, constants, functions, states] ←
    record? ["name", "parent", "fields", "constants", "functions", "states"] j | none
  some ⟨← string? name, ← orDefault none parent? parent,
    ← orDefault [] (list? FieldDecl.ofJson?) fields, ← orDefault [] constants? constants,
    ← orDefault [] (list? FunctionDecl.ofJson?) functions,
    ← orDefault [] (list? StateDecl.ofJson?) states⟩

def LineSpecial.ofJson? (j : Json) : Option LineSpecial := do
  let [some name, some number, some minArgs, some maxArgs] ←
    record? ["name", "number", "min_args", "max_args"] j | none
  some ⟨← string? name, Int32.ofInt (← integer? Int32.minValue.toInt Int32.maxValue.toInt number),
    (← integer? 0 255 minArgs).toNat, (← integer? 0 255 maxArgs).toNat⟩

def Declarations.ofJson? (j : Json) : Option Declarations := do
  let [classes, constants, specials, sounds] ←
    record? ["classes", "constants", "specials", "sounds"] j | none
  some ⟨← orDefault [] (list? ClassDecl.ofJson?) classes, ← orDefault [] constants? constants,
    ← orDefault [] (list? LineSpecial.ofJson?) specials, ← orDefault [] (list? string?) sounds⟩

def Declarations.parse (text : String) : Option Declarations :=
  (Json.parse text).bind Declarations.ofJson?

end ActorScript
