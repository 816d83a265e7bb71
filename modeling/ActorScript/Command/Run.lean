import ActorScript.Bytecode.Listing
import ActorScript.Bytecode.Record
import ActorScript.Command.Arguments
import ActorScript.Diagnostic.Excerpt
import ActorScript.Diagnostic.Record
import ActorScript.Function
import ActorScript.Grammar.Statement
import ActorScript.World.Stock

/-! # Running commands

A command turns the texts of the files it reads into what it prints and its exit code.
-/

namespace ActorScript.Command

structure Outcome where
  exit : Nat := 0
  out : String := ""
  err : String := ""
  deriving DecidableEq, Repr

inductive Failure where
  | unreadable (path cause : String)
  | environment (e : EnvError)
  | unknownClass (name : String)
  | unknownCode (id : String)
  | nothingToExplain
  deriving DecidableEq, Repr

def Failure.message : Failure → String
  | unreadable path cause => s!"cannot read {path}: {cause}"
  | environment e => e.message
  | unknownClass name => s!"unknown class '{name}'"
  | unknownCode id => s!"unknown diagnostic code '{id}'"
  | nothingToExplain => "nothing to explain; pass a code or --list"

/-- The text of a file, or why there is none. -/
abbrev Files := String → Except String String

def readFile (files : Files) (path : String) : Except Failure String :=
  (files path).mapError (.unreadable path)

/-- Name of a file without its folders and its last extension. -/
def fileStem (path : String) : String :=
  let parts := (path.toList.splitOnP (· == '/')).filter fun part => !part.isEmpty && part ≠ ['.']
  match parts.getLast? with
  | none | some ['.', '.'] => ""
  | some name =>
      match name.reverse.span (· ≠ '.') with
      | (_, '.' :: []) => String.ofList name
      | (_, '.' :: stem) => String.ofList stem.reverse
      | _ => String.ofList name

def Context.world (files : Files) (c : Context) : Except Failure World :=
  match c.env with
  | none => .ok World.stock
  | some path => do
      match World.stock.load (← readFile files path) with
      | (.ok _, w) => .ok w
      | (.error e, _) => .error (.environment e)

def findClass (w : World) (name : String) : Except Failure ClassId :=
  match w.findClass name with
  | some id => .ok id
  | none => .error (.unknownClass name)

def Context.options (w : World) (c : Context) (name : String) : Except Failure Options := do
  let cls ← findClass w c.cls
  let selfClass ← c.selfClass.mapM (findClass w)
  return { name, kind := c.kind, cls := some cls, selfClass, lax := c.lax, strict := c.strict }

/-! ## Reports -/

structure Reporter where
  format : Format
  verbose : Bool
  color : Bool

namespace Reporter

/-- Remarks for debugging only show on request. -/
def shows (r : Reporter) (d : Diagnostic) : Bool :=
  r.verbose || match d.severity with
    | .debug | .debugLog => false
    | .warning | .optError | .error => true

def text (r : Reporter) (source : String) (diagnostics : List Diagnostic) : String :=
  String.join ((diagnostics.filter r.shows).map (Diagnostic.render r.color (some source)))

def json (r : Reporter) (source : String) (diagnostics : List Diagnostic) : Json :=
  .arr ((diagnostics.filter r.shows).map (Diagnostic.toJson (some source)))

def line (ok : Bool) (members : List (String × Json)) : String :=
  (Json.sorted (("ok", .bool ok) :: members)).render ++ "\n"

def rejected (r : Reporter) (source : String) (diagnostics : List Diagnostic) : Outcome :=
  match r.format with
  | .json => { exit := 1, out := line false [("diagnostics", r.json source diagnostics)] }
  | .ansi => { exit := 1, err := r.text source diagnostics }

def compiled (r : Reporter) (source : String) (c : Compiled) : Outcome :=
  match r.format with
  | .json =>
      { out := line true
          [("chunk", c.chunk.toJson), ("diagnostics", r.json source c.diagnostics)] }
  | .ansi => { out := c.chunk.listing, err := r.text source c.diagnostics }

def evaluated (r : Reporter) (w : World) (source : String) (c : Constant)
    (diagnostics : List Diagnostic) : Outcome :=
  let value := c.display
  let type := w.describe c.ty
  match r.format with
  | .json =>
      { out := line true
          [("value", .str value), ("type", .str type), ("diagnostics", r.json source diagnostics)] }
  | .ansi => { out := s!"{value} : {type}\n", err := r.text source diagnostics }

/-- Goes on with a parsed script, or reports why there is none. -/
def parsed {α : Type} (r : Reporter) (source : String) (x : Except SyntaxFailure α)
    (next : α → Outcome) : Outcome :=
  match x with
  | .ok a => next a
  | .error e => r.rejected source e.diagnostics

/-- Goes on with the result of a compilation, or reports why there is none. -/
def settled {α : Type} (r : Reporter) (source : String) (x : Except CompileFailure α)
    (next : α → Outcome) : Outcome :=
  match x with
  | .ok a => next a
  | .error f => r.rejected source f.diagnostics

end Reporter

/-! ## Tasks -/

def compile (files : Files) (r : Reporter) (c : Context) (name source : String) :
    Except Failure Outcome := do
  let w ← c.world files
  let o ← c.options w name
  return r.parsed source (parseBody source) fun body =>
    r.settled source (compileFunction w o [] body) (r.compiled source)

def eval (files : Files) (r : Reporter) (c : Context) (source : String) :
    Except Failure Outcome := do
  let w ← c.world files
  let o ← c.options w "Constant"
  return r.parsed source (parseExpression source) fun e =>
    r.settled source (evaluateConstant w o e) fun (value, diagnostics) =>
      r.evaluated w source value diagnostics

def damage (files : Files) (r : Reporter) (c : Context) (source : String) :
    Except Failure Outcome := do
  let w ← c.world files
  let o ← c.options w "Damage"
  return r.parsed source (parseExpression source) fun e =>
    r.settled source (compileDamage w o e) (r.compiled source)

def explain (code : Option String) : Except Failure Outcome :=
  match code with
  | none => .error .nothingToExplain
  | some id =>
      match Code.find? id with
      | some code => .ok { out := code.explain }
      | none => .error (.unknownCode id)

def listCodes : Outcome :=
  { out := String.join (Code.all.map fun code => code.id ++ "  " ++ code.summary ++ "\n") }

def Request.perform (files : Files) (color : Bool) (c : Request) : Except Failure Outcome :=
  let r : Reporter := { format := c.format, verbose := c.verbose, color }
  match c.task with
  | .compileText source => compile files r c.context "Anonymous" source
  | .compileFile path => do
      let source ← readFile files path
      compile files r c.context (fileStem path) source
  | .eval source => eval files r c.context source
  | .damage source => damage files r c.context source
  | .explain code => explain code
  | .listCodes => .ok listCodes

def Request.run (files : Files) (color : Bool) (c : Request) : Outcome :=
  match c.perform files color with
  | .ok outcome => outcome
  | .error failure =>
      let message := failure.message
      { exit := 1, err := s!"error: {message}\n" }

def run (files : Files) (color : Bool) (args : List String) : Outcome :=
  match ofArguments args with
  | .ok c => c.run files color
  | .error e =>
      let message := e.message
      { exit := 2, err := s!"error: {message}\n" }

end ActorScript.Command
