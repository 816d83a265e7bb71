import ActorScript.Expr.Basic
import ActorScript.Typing.Fault
import ActorScript.World.TypeName

/-! # The setting and scope of typing

What a function is typed against stays fixed: the world, the class and the
dialect. What changes on the way is its scope: local variables, open loops and
assignments, the return types so far and the diagnostics.
-/

namespace ActorScript

structure Options where
  name : String := "Anonymous"
  kind : FunctionKind := .static
  /-- The class whose members bare names refer to. -/
  cls : Option ClassId := none
  /-- Class of the self pointer, when it is another one. -/
  selfClass : Option ClassId := none
  /-- Whether some type errors of old scripts are let pass. -/
  lax : Bool := false
  /-- Whether what was let pass fails the compilation after all. -/
  strict : Bool := false

structure FunctionInfo where
  kind : FunctionKind
  selfClass : Option ClassId

structure Setting where
  world : World
  cls : Option ClassId
  /-- None for a constant by itself. -/
  function : Option FunctionInfo
  lax : Bool
  strict : Bool

namespace Setting

/-- Static functions have no self pointer. -/
def ofOptions (world : World) (o : Options) (inFunction : Bool) : Setting :=
  { world
    cls := o.cls
    function :=
      if inFunction then
        some
          { kind := o.kind
            selfClass := if o.kind = .static then none else o.selfClass.or o.cls }
      else none
    lax := o.lax
    strict := o.strict }

def functionKind? (s : Setting) : Option FunctionKind :=
  s.function.map FunctionInfo.kind

def selfClass? (s : Setting) : Option ClassId :=
  s.function.bind FunctionInfo.selfClass

end Setting

structure LocalVar where
  name : String
  ty : Ty
  isParam : Bool
  deriving DecidableEq, Repr

structure Scope where
  /-- Local variables by number, those out of sight included. -/
  locals : Array LocalVar := #[]
  params : List LocalId := []
  /-- Variables of the open blocks, the innermost block first, each in order of declaration. -/
  blocks : List (List LocalId) := []
  /-- Jumps seen in each open loop, the innermost first. -/
  loops : List Nat := []
  /-- Types of the left sides of the open assignments, the innermost first. -/
  targets : List Ty := []
  returnTypes : Option (List Ty) := none
  diagnostics : List Diagnostic := []

namespace Scope

def nameOf (s : Scope) (id : LocalId) : String :=
  (s.locals[id]?).elim "" LocalVar.name

def typeOf (s : Scope) (id : LocalId) : Ty :=
  (s.locals[id]?).elim .error LocalVar.ty

/-- Visible variables, parameters last, in the order in which names are looked up. -/
def lookupOrder (s : Scope) : List LocalId :=
  s.blocks.flatMap List.reverse ++ s.params

def find? (s : Scope) (name : String) : Option LocalId :=
  s.lookupOrder.find? fun id => Text.sameName (s.nameOf id) name

/-- Names of the visible variables, the outermost block first and parameters last. -/
def visibleNames (s : Scope) : List String :=
  (s.blocks.reverse.flatten ++ s.params).map s.nameOf

def declareParam (s : Scope) (name : String) (ty : Ty) : LocalId × Scope :=
  let id := s.locals.size
  (id, { s with locals := s.locals.push ⟨name, ty, true⟩, params := s.params ++ [id] })

/-- Adds a variable to the innermost block, which has none of that name yet. -/
def declareLocal (s : Scope) (name : String) (ty : Ty) : Except Fault (LocalId × Scope) :=
  match s.blocks with
  | [] => .error .declarationOutsideBlock
  | block :: outer =>
      if block.any fun id => Text.sameName (s.nameOf id) name then .error (.alreadyDefined name)
      else
        let id := s.locals.size
        .ok (id,
          { s with
            locals := s.locals.push ⟨name, ty, false⟩
            blocks := (block ++ [id]) :: outer })

def pushBlock (s : Scope) : Scope :=
  { s with blocks := [] :: s.blocks }

/-- Closes the innermost block and gives its variables. -/
def popBlock (s : Scope) : List LocalId × Scope :=
  (s.blocks.headD [], { s with blocks := s.blocks.tail })

def enterLoop (s : Scope) : Scope :=
  { s with loops := 0 :: s.loops }

/-- Leaves the innermost loop and gives the number of its jumps. -/
def leaveLoop (s : Scope) : Nat × Scope :=
  (s.loops.headD 0, { s with loops := s.loops.tail })

/-- Counts a jump; none when there is no loop. -/
def noteJump? (s : Scope) : Option Scope :=
  match s.loops with
  | [] => none
  | jumps :: outer => some { s with loops := (jumps + 1) :: outer }

def pushTarget (ty : Ty) (s : Scope) : Scope :=
  { s with targets := ty :: s.targets }

def popTarget (s : Scope) : Scope :=
  { s with targets := s.targets.tail }

/-- Return types of the function after one more return. The types of the shorter of two
returns begin those of the longer, and one without a value goes with such ones only. -/
def joinReturn (current : Option (List Ty)) (types : List Ty) : Option (List Ty) :=
  match current with
  | none => some types
  | some current =>
      let (short, long) :=
        if types.length ≤ current.length then (types, current) else (current, types)
      if short.isEmpty == long.isEmpty && short.isPrefixOf long then some long else none

def noteReturn? (s : Scope) (types : List Ty) : Option Scope :=
  (joinReturn s.returnTypes types).map fun joined => { s with returnTypes := some joined }

def record (d : Diagnostic) (s : Scope) : Scope :=
  { s with diagnostics := s.diagnostics ++ [d] }

/-- Whether what was recorded fails the compilation. -/
def hasFatal (s : Scope) (strict : Bool) : Bool :=
  s.diagnostics.any (·.isFatal strict)

end Scope

/-- A step of typing. What it did to the scope stays also when it is rejected. -/
abbrev Typing := ReaderT Setting (ExceptT Rejection (StateM Scope))

namespace Typing

def runFrom (x : Typing α) (setting : Setting) (scope : Scope) : Except Rejection α × Scope :=
  ((x.run setting).run).run scope

def reject (span : Span) (fault : Fault) : Typing α :=
  throw { fault, span }

def report (severity : Severity) (span : Span) (code : Option String) (message : String) :
    Typing Unit :=
  modify (Scope.record { severity, code, message, label := some ⟨span, ""⟩ })

def warn (span : Span) (fault : Fault) : Typing Unit :=
  report .warning span (some fault.code) fault.message

def log (span : Span) (message : String) : Typing Unit :=
  report .debugLog span none message

/-- A fault that old scripts get away with: recorded under the lax dialect, a rejection
otherwise. -/
def tolerate (span : Span) (fault : Fault) : Typing Unit := do
  if (← read).lax then report .optError span (some fault.code) fault.message
  else reject span fault

def describe (ty : Ty) : Typing String := do
  return (← read).world.describe ty

def typeNamed (span : Span) (name : String) : Typing Ty := do
  match (← read).world.parseType name with
  | some ty => return ty
  | none => reject span (.unknownType name)

/-- Does something to the scope around a step, whether the step succeeds or not. -/
def bracket (enter leave : Scope → Scope) (x : Typing α) : Typing α := do
  modify enter
  tryCatch
    (do
      let a ← x
      modify leave
      return a)
    fun r => do
      modify leave
      throw r

def inBlock (x : Typing α) : Typing (α × List LocalId) := do
  modify Scope.pushBlock
  tryCatch
    (do
      let a ← x
      let locals ← modifyGet Scope.popBlock
      return (a, locals))
    fun r => do
      modify fun s => s.popBlock.2
      throw r

def inLoop (x : Typing α) : Typing (α × Nat) := do
  modify Scope.enterLoop
  tryCatch
    (do
      let a ← x
      let jumps ← modifyGet Scope.leaveLoop
      return (a, jumps))
    fun r => do
      modify fun s => s.leaveLoop.2
      throw r

def declareLocal (span : Span) (name : String) (ty : Ty) : Typing LocalId := do
  match (← get).declareLocal name ty with
  | .ok (id, s) =>
      set s
      return id
  | .error fault => reject span fault

def noteReturn (span : Span) (types : List Ty) : Typing Unit := do
  match (← get).noteReturn? types with
  | some s => set s
  | none => reject span .returnTypes

def noteJump (span : Span) (keyword : String) : Typing Unit := do
  match (← get).noteJump? with
  | some s => set s
  | none => reject span (.jumpOutsideLoop keyword)

end Typing

end ActorScript
