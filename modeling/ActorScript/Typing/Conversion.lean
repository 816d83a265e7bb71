import ActorScript.Color
import ActorScript.Text.Blank
import ActorScript.Typing.Scope

/-! # Conversions

Conversions of a settled operand, by the type wanted. Constants are converted at
once. The span given to a conversion is the one its node and its faults get.
-/

namespace ActorScript

namespace Expr

def retype (ty : Ty) (e : Expr) : Expr :=
  match e with
  | .constant m value => .constant { m with ty := some ty } { value with ty }
  | other => other.withTy ty

def settled (span : Span) (ty : Ty) : Mark :=
  { span, ty := some ty }

end Expr

namespace Typing

open ActorScript.Expr (settled)

def cannotConvert (span : Span) (source target : Ty) : Typing α := do
  reject span (.cannotConvert (← describe source) (← describe target))

def textOf (c : Constant) : String :=
  c.text?.getD ""

/-! ## Numbers -/

def toBool (span : Span) (x : Expr) : Typing Expr := do
  if x.ty = .bool then return x
  else if x.ty.bank? = none || x.ty.bank? = some .string then reject span .numericExpected
  else
    match x.constant? with
    | some c => return .ofConstant span (.bool c.truth)
    | none => return .cast (settled span .bool) .bool x

/-- Names live in integer registers but are no numbers. Old scripts may use one and get zero. -/
def nameAsNumber (span : Span) (x : Expr) : Typing Unit :=
  tolerate span (.nameAsNumber (x.constant?.map textOf))

/-- Whether cutting a float towards zero loses something. -/
def losesFraction (v : Float) : Bool :=
  match Decimal.decode v with
  | .nan => true
  | .infinite _ => false
  | .finite _ => !Decimal.isWhole v

def toInt (span : Span) (x : Expr) (quiet : Bool) : Typing Expr := do
  if x.ty = .name then
    nameAsNumber span x
    return .ofConstant span (.int 0)
  else if x.ty.bank? = some .int then return x
  else if !x.ty.isFloat then reject span .numericExpected
  else
    match x.constant? with
    | some c =>
        let v := c.toFloat
        if !quiet && losesFraction v then warn span (.truncatedConstant (Decimal.fixed 6 v))
        return .ofConstant span (.int (Decimal.toInt32 v))
    | none =>
        if !quiet then warn span .truncatedValue
        return .intCast (settled span .int) x quiet

def toFloat (span : Span) (x : Expr) : Typing Expr := do
  if x.ty.isFloat then return x
  else if x.ty = .name then
    nameAsNumber span x
    return .ofConstant span (.float 0.0)
  else if x.ty.bank? ≠ some .int then reject span .numericExpected
  else
    match x.constant? with
    | some c => return .ofConstant span (.float c.toFloat)
    | none => return .cast (settled span .double) .float x

/-- Integer operands of built-in functions are narrowed silently in the lax dialect. -/
def toIntArgument (span : Span) (x : Expr) : Typing Expr := do
  toInt span x (← read).lax

/-! ## Texts -/

def toName (span : Span) (x : Expr) : Typing Expr := do
  match x.ty with
  | .name => return x
  | .string =>
      match x.constant? with
      | some c => return .ofConstant span (.name (textOf c))
      | none => return .cast (settled span .name) .name x
  | _ => reject span (.cannotConvertTo "name")

/-- Text that a name or sound constant stands for. -/
def spelling (w : World) (c : Constant) : String :=
  if c.ty = .sound then w.soundName c.toInt else textOf c

def toText (span : Span) (x : Expr) : Typing Expr := do
  match x.ty with
  | .string => return x
  | .name | .sound =>
      match x.constant? with
      | some c => return .ofConstant span (.string (spelling (← read).world c))
      | none => return .cast (settled span .string) .string x
  | _ => reject span (.cannotConvertTo "string")

def toColor (span : Span) (x : Expr) : Typing Expr := do
  match x.ty with
  | .color => return x
  | .integer _ => return x.retype .color
  | .string =>
      match x.constant? with
      | some c =>
          match Color.parse (textOf c) with
          | some rgb => return .ofConstant span (.color (UInt32.ofNat rgb))
          | none =>
              warn span (.unknownColor (textOf c))
              return .ofConstant span (.color 0)
      | none => return .cast (settled span .color) .color x
  | _ => reject span (.cannotConvertTo "color")

def toSound (span : Span) (x : Expr) : Typing Expr := do
  match x.ty with
  | .sound => return x
  | .integer _ => return x.retype .sound
  | .string =>
      match x.constant? with
      | some c => return .ofConstant span (.sound ((← read).world.soundId (textOf c)))
      | none => return .cast (settled span .sound) .sound x
  | _ => reject span (.cannotConvertTo "sound")

def castTo (kind : CastKind) (span : Span) (x : Expr) : Typing Expr :=
  match kind with
  | .bool => toBool span x
  | .float => toFloat span x
  | .name => toName span x
  | .string => toText span x
  | .color => toColor span x
  | .sound => toSound span x

/-! ## Classes -/

/-- The class that a constant name stands for. The empty name and `none` stand for null, and so
does an unknown name in the lax dialect. -/
def classNamed (span : Span) (target : ClassId) (name : String) : Typing Expr := do
  let w := (← read).world
  let null : Constant := ⟨.classPtr target, .pointer .null⟩
  if name.isEmpty || Text.sameName name "none" then return .ofConstant span null
  else
    match w.findClass name with
    | none =>
        tolerate span (.unknownClass name)
        return .ofConstant span null
    | some cls =>
        if w.descends cls target then
          log span ("resolving '" ++ name ++ "' as class name")
          return .ofConstant span ⟨.classPtr target, .pointer (.cls cls)⟩
        else reject span (.classMismatch name (w.className target))

/-- The class that a name or a text stands for, looked up now if it is a constant and at run time
otherwise. -/
def classFrom (span : Span) (x : Expr) (target : ClassId) : Typing Expr := do
  match x.constant? with
  | some c => classNamed span target (textOf c)
  | none =>
      let x ← if x.ty = .string then toName span x else pure x
      return .classCast (settled span (.classPtr target)) x target

/-- Pointers to classes convert to pointers to their ancestors, and texts are looked up. -/
def toClass (span : Span) (x : Expr) (target : ClassId) : Typing Expr := do
  let w := (← read).world
  match x.ty with
  | .nullPtr => return x.retype (.classPtr target)
  | .classPtr source =>
      if w.descends source target then return x.retype (.classPtr target)
      else reject span (.unrelatedClasses (w.className source) (w.className target))
  | .name | .string => classFrom span x target
  | other => reject span (.cannotBeClass (← describe other))

/-! ## States -/

def stateAt (span : Span) (index : Nat) : Typing Expr := do
  let s ← read
  match s.cls.bind s.world.class? with
  | none => reject span .stateIndexOutsideClass
  | some c =>
      if index < c.ownedStates then return .ofConstant span (.state (some (c.firstState + index)))
      else reject span (.noSuchStateIndex c.name index)

/-- States can be counted at run time in actions only. -/
def requireAction (span : Span) : Typing Unit := do
  if (← read).functionKind? ≠ some .action then reject span .runtimeStateIndex

def runtimeStateAt (span : Span) (index : Expr) (tail : Bool) : Typing Expr := do
  if !index.ty.isNumeric then reject span .numericExpected
  else
    let index ←
      if index.ty.bank? = some .int then pure index else toIntArgument index.span index
    return .runtimeState (settled span .state) index tail

/-- Parts of a label: the scope in front of a double colon, and the path behind it. -/
def splitLabel : List Char → Option (List Char) × List Char
  | cs =>
      let rec go (before : List Char) : List Char → Option (List Char) × List Char
        | ':' :: ':' :: rest => (some before.reverse, rest)
        | c :: rest => go (c :: before) rest
        | [] => (none, cs)
      go [] cs

/-- Names of a dotted path, without the empty ones. -/
def labelNames (path : List Char) : List String :=
  ((path.splitOnP (· == '.')).map Text.trimChars).filterMap fun name =>
    if name.isEmpty then none else some (String.ofList name)

/-- The class that the scope of a label names: an ancestor, by name or as the parent. -/
def labelScope (span : Span) (cls : ClassId) (name : String) : Typing (Option ClassId) := do
  let w := (← read).world
  if Text.sameName name "super" then return w.parent? cls
  else
    match w.findClass name with
    | none => reject span (.labelScope name)
    | some scope =>
        if w.descends cls scope then return some scope
        else reject span (.labelNotAncestor name (w.className cls))

/-- The state that a label stands for. With a scope the label is looked up now, without one on the
actor at run time; a label without names is the null state. -/
def stateFor (span : Span) (text : String) (names : List String) (scope : Option ClassId) :
    Typing Expr := do
  let atRuntime := Expr.stateLabel (settled span .state) text names false
  if names.isEmpty then return .ofConstant span (.state none)
  else
    match scope with
    | none => return atRuntime
    | some scope =>
        match (← read).world.findState scope names false with
        | some state => return .ofConstant span (.state (some state))
        | none =>
            tolerate span .unknownLabel
            return atRuntime

/-- A state label, which stands in a class. -/
def labelled (span : Span) (text : String) : Typing Expr := do
  match (← read).cls with
  | none => reject span (.labelOutsideClass text)
  | some cls =>
      let (scopeName, path) := splitLabel text.toList
      let scope ← match scopeName with
        | none => pure none
        | some name => labelScope span cls (Text.trim (String.ofList name))
      stateFor span text (labelNames path) scope

/-- Constant texts are labels, and integers count states. -/
def toState (span : Span) (x : Expr) : Typing Expr := do
  match x.ty, x.constant? with
  | .string, some c | .name, some c => labelled span (textOf c)
  | .integer _, some c =>
      if c.toInt < 0 then reject span (.negativeStateIndex c.toInt.toInt)
      else stateAt span c.toInt.toInt.toNat
  | .integer _, none =>
      requireAction span
      runtimeStateAt span x false
  | ty, _ => cannotConvert span ty .state

/-! ## Any type -/

/-- Converts a settled operand to a type, by the rules of that type. -/
def convert (span : Span) (x : Expr) (target : Ty) (quiet : Bool) : Typing Expr := do
  if x.ty = .void || target = .void then cannotConvert span x.ty target
  else if x.ty = target then return x
  else if x.ty = .nullPtr && target.isPointer then return x.retype target
  else
    match target with
    | .floating _ => return (← toFloat x.span x).retype target
    | .integer _ => return (← toInt x.span x quiet).retype target
    | .bool => toBool x.span x
    | .string => toText span x
    | .name => toName span x
    | .sound => toSound span x
    | .color => toColor span x
    | .state => toState span x
    | .classPtr cls => toClass span x cls
    | .object cls =>
        match x.ty with
        | .object c =>
            if (← read).world.descends c cls then return x.retype target
            else cannotConvert span x.ty target
        | _ => cannotConvert span x.ty target
    | _ => cannotConvert span x.ty target

end Typing

end ActorScript
