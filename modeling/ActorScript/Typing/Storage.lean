import ActorScript.Text.Distance
import ActorScript.Typing.Conversion

/-! # Variables, members and assignment

What names refer to, and which values have a place that can be written.
-/

namespace ActorScript

/-- Asks an expression for its place. Gives whether the place may be written and the expression
so asked; what has no place gives nothing. -/
def Expr.addressOf? : Expr → Option (Bool × Expr)
  | e@(.localVar _ _) => some (true, e.requestAddress)
  | e@(.field _ _ _ readonly) => some (!readonly, e.requestAddress)
  | .element m array index =>
      array.addressOf?.map fun (writable, array) =>
        (writable, (Expr.element m array index).requestAddress)
  | e@(.assign _ _ _) => some (true, e.requestAddress)
  | e@(.step _ _ true _) => some (true, e.requestAddress)
  | _ => none

namespace Typing

open ActorScript.Expr (settled)

/-- The left side of an assignment or a step. -/
def requireWritable (span : Span) (e : Expr) : Typing Expr := do
  match e.addressOf? with
  | some (true, e) => return e
  | _ => reject span .notModifiable

/-! ## Names -/

def unknownIdentifier (span : Span) (name : String) (candidates : List String) : Typing α :=
  throw
    { fault := .unknownIdentifier name
      span
      hint := (Text.nearest? name candidates).map fun near => "did you mean '" ++ near ++ "'?" }

/-- Constants of classes and of the world may only be numbers. -/
def namedConstant (span : Span) (name : String) (c : Constant) : Typing Expr := do
  if c.ty.isInt || c.ty.isFloat then return .ofConstant span c
  else reject span (.invalidConstant name)

def localAt (span : Span) (id : LocalId) : Typing Expr := do
  return .localVar (settled span ((← get).typeOf id)) id

def selfAt (span : Span) : Typing Expr := do
  match (← read).selfClass? with
  | some cls => return .selfRef (settled span (.object cls))
  | none => reject span .noSelf

/-- Checks of a field that is read in any way. -/
def checkField (span : Span) (field : Field) (owner : ClassId) : Typing Unit := do
  if field.flags.isDeprecated then warn span (.deprecatedMember field.name)
  if field.flags.isPrivate && some owner ≠ (← read).cls then
    reject span (.privateMember field.name)
  if field.flags.isStatic then reject span .staticMember

def fieldOf (span : Span) (object : Expr) (field : Field) : Expr :=
  .field (settled span field.ty) object field.offset field.flags.isReadonly

/-- A self pointer of another class has to see the same field under the name, or none. -/
def seesSameField (w : World) (selfClass : ClassId) (name : String) (field : Field) : Bool :=
  match w.findMember selfClass name with
  | some (.field f, _) => f == field
  | some _ => false
  | none => true

/-- A field of the class itself, read through the self pointer. -/
def ownField (span : Span) (name : String) (field : Field) (owner : ClassId) : Typing Expr := do
  let s ← read
  if s.function.isNone then reject span .memberOutsideFunction
  checkField span field owner
  match s.selfClass? with
  | none => reject span .memberFromStatic
  | some selfClass =>
      if some selfClass ≠ s.cls && !seesSameField s.world selfClass name field then
        reject span (.restrictedMember (s.cls.elim "" s.world.className))
      log span ("Resolving name '" ++ name ++ "' as member variable, index " ++
        toString field.offset)
      return fieldOf span (← selfAt span) field

/-- Names in the order in which a misspelled one is compared with them. -/
def identifierCandidates : Typing (List String) := do
  let s ← read
  return (← get).visibleNames ++ s.cls.elim [] s.world.memberNames ++ s.world.globalNames

def globalNamed (span : Span) (name : String) : Typing Expr := do
  let w := (← read).world
  match w.global? name with
  | some c =>
      log span ("Resolving name '" ++ name ++ "' as global constant")
      namedConstant span name c
  | none =>
      match w.special? name with
      | some special =>
          log span ("Resolving name '" ++ name ++ "' as line special " ++
            toString special.number.toInt)
          return .ofConstant span (.int special.number)
      | none => unknownIdentifier span name (← identifierCandidates)

/-- A bare name: a local variable, else a member of the class, else something of the world. -/
def identifierAt (span : Span) (name : String) : Typing Expr := do
  let s ← read
  match (← get).find? name with
  | some id => localAt span id
  | none =>
      match s.cls.bind (s.world.findMember · name) with
      | some (.const c, _) =>
          log span ("Resolving name '" ++ name ++ "' as class constant")
          namedConstant span name c
      | some (.field field, owner) => ownField span name field owner
      | some (.function _, _) => reject span (.invalidMember name)
      | none => globalNamed span name

def memberOf (span : Span) (object : Expr) (name : String) : Typing Expr := do
  let w := (← read).world
  match object.ty with
  | .object cls =>
      match w.findMember cls name with
      | some (.const c, _) =>
          log span ("Resolving name '" ++ name ++ "' as class constant")
          namedConstant span name c
      | some (.field field, owner) =>
          checkField span field owner
          return fieldOf span object field
      | some (.function _, _) => reject span (.invalidMember name)
      | none => unknownIdentifier span name (w.memberNames cls)
  | _ => reject span (.notAnObject name)

/-! ## Arrays -/

/-- An element of a settled array at a settled index that is not cut to an integer. -/
def elementAt (span : Span) (array index : Expr) : Typing Expr := do
  if index.ty.bank? ≠ some .int then reject span .arrayIndexType
  match array.ty with
  | .array elem count =>
      if index.constant?.any fun c => count ≤ c.toInt.toUInt32.toNat then
        reject span .arrayIndexRange
      if elem.bank? ≠ some .int && elem.bank? ≠ some .float then reject span .arrayElementType
      match array.addressOf? with
      | none => reject span .arrayAddress
      | some (_, array) => return .element (settled span elem) array index
  | _ => reject span .notAnArray

def elementOf (span : Span) (array index : Expr) : Typing Expr := do
  if index.ty.isFloat then elementAt span array (← toIntArgument index.span index)
  else elementAt span array index

/-! ## Storage questions -/

def storageOf (span : Span) (op : StorageOp) (x : Expr) : Typing Expr := do
  if x.isConstant then reject span (.sizeOfConstant op.quantity)
  if x.addressOf?.isNone then reject span (.sizeOfValue op.quantity)
  let amount := match op with
    | .size => x.ty.size
    | .align => x.ty.align
  return .ofConstant span (.int (Int32.ofNat amount))

/-! ## Writing -/

def stepOf (span : Span) (op : StepOp) (before : Bool) (x : Expr) : Typing Expr := do
  if !x.ty.isNumeric then reject span .numericExpected
  if x.ty = .bool then reject span (.stepOnBool op.symbol)
  let ty := x.ty
  let x ← requireWritable span x
  return .step (settled span ty) op before x

def assignNumber (ty : Ty) (value : Expr) : Typing Expr := do
  if value.ty = ty then return value
  else
    match ty with
    | .bool => toBool value.span value
    | .floating _ => return (← toFloat value.span value).retype ty
    | _ => return (← toIntArgument value.span value).retype ty

def assignValue (span : Span) (ty : Ty) (value : Expr) : Typing Expr := do
  if ty.isNumeric && value.ty.isNumeric then assignNumber ty value
  else if ty = value.ty then
    match ty with
    | .array _ _ => reject span .arrayAssignment
    | .struct _ => reject span .structAssignment
    | _ => return value
  else if ty.isPointer && value.ty = .nullPtr then return value.retype ty
  else
    match ty, value.ty with
    | .classPtr cls, _ => toClass span value cls
    | .string, .name | .string, .sound => toText span value
    | .name, .string => toName span value
    | _, _ => reject span .assignmentTypes

def assignTo (span : Span) (target value : Expr) : Typing Expr := do
  let ty := target.ty
  let value ← assignValue span ty value
  let target ← requireWritable span target
  return .assign (settled span ty) target value

/-- The left side of the compound assignment around. -/
def assignedAt (span : Span) : Typing Expr := do
  match (← get).targets with
  | ty :: _ => return .assigned (settled span ty)
  | [] => reject span .noLeftSide

end Typing

end ActorScript
