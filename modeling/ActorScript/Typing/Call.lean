import ActorScript.Typing.Operation

/-! # Calls

What a call by name refers to is settled before its arguments are: a function of
the class, a float function, a line special or a function of the language, in
this order. Each callee says how an argument is prepared, once it is settled, and
what the call comes to.
-/

namespace ActorScript

inductive Callee where
  | function (signature : Signature)
  | floatFn (fn : FloatFn)
  | special (number : Int32)
  | random (float : Bool) (rng : String)
  | randomPick (float : Bool) (rng : String)
  | random2 (rng : String)
  | extremum (op : Extremum)
  | clamp
  | abs
  | atan2
  /-- The angle of a vector given by its components, the second of which is settled first. -/
  | vectorAngle

namespace Typing

open ActorScript.Expr (settled)

/-! ## Functions of classes -/

/-- A function that is not static needs an object or a self pointer, and every function its
number of arguments. -/
def checkInvoke (span : Span) (onObject : Bool) (f : Signature) (count : Nat) : Typing Unit := do
  if !onObject && f.kind ≠ .static && (← read).selfClass?.isNone then
    reject span .callWithoutSelf
  if count < f.params.length then
    reject span (.tooFewParameters f.name f.params.length count)
  if f.params.length < count then
    reject span (.tooManyParameters f.name f.params.length count)

def invokeArgument (f : Signature) (index : Nat) (span : Span) (x : Expr) : Typing Expr :=
  convert span x (f.params.getD index .error) false

def invoked (span : Span) (object : Option Expr) (f : Signature) (args : List Expr)
    (tail : Bool) : Expr :=
  .invoke (settled span (f.returns.headD .void)) object f args tail

def functionNamed (span : Span) (cls : ClassId) (name : String) : Typing Signature := do
  match (← read).world.findMember cls name with
  | some (.function f, _) => return f
  | _ => reject span (.unknownFunction name)

/-- The function that a call on a settled object means, and the object if it is passed. A static
function needs none, and a call through a class runs on the self pointer if the class is
inherited from. -/
def memberTarget (span : Span) (object : Expr) (name : String) :
    Typing (Option Expr × Signature) := do
  let s ← read
  match object.ty with
  | .object cls =>
      let f ← functionNamed span cls name
      return (if f.kind = .static then none else some object, f)
  | .classPtr cls =>
      let f ← functionNamed span cls name
      if f.kind = .static || s.cls.any (s.world.descends · cls) then return (none, f)
      else reject span (.callNotInherited (s.world.className cls) name)
  | ty => reject span (if ty.isPointer then .callOnPointer name else .callOnValue name)

/-! ## Line specials -/

/-- A special with a negative number takes a script name first. -/
def specialArgument (number : Int32) (index : Nat) (x : Expr) : Typing Expr := do
  if number < 0 && index == 0 then
    if x.ty = .name && x.isConstant then return x
    else reject x.span (.nameParameter index)
  else
    match x.ty.bank? with
    | some .int => return x
    | some .float => toIntArgument x.span x
    | _ => reject x.span (.integerParameter index)

/-! ## Functions of the language -/

def floatFnOf (span : Span) (fn : FloatFn) (x : Expr) : Typing Expr := do
  if !x.ty.isNumeric then reject span .numericParameter
  else
    match x.constant? with
    | some c => return .ofConstant span (.float (fn.apply c.toFloat))
    | none => return .floatFn (settled span .double) fn (← toFloat x.span x)

def numberArgument (float : Bool) (span : Span) (x : Expr) : Typing Expr :=
  if float then toFloat span x else toIntArgument span x

def numberType (float : Bool) : Ty :=
  if float then .double else .int

def randomOf (span : Span) (float : Bool) (rng : String) (low high : Expr) (tail : Bool) : Expr :=
  .random (settled span (numberType float)) float rng low high tail

def randomPickOf (span : Span) (float : Bool) (rng : String) (choices : List Expr) : Expr :=
  .randomPick (settled span (numberType float)) float rng choices

def extremumArgument (x : Expr) : Typing Expr := do
  if x.ty.isNumeric then return x else reject x.span .extremumArguments

/-- Whether a constant takes the place of the best so far. -/
def beats (op : Extremum) (float : Bool) (candidate best : Constant) : Bool :=
  match op, float with
  | .min, true => candidate.toFloat < best.toFloat
  | .min, false => candidate.toInt < best.toInt
  | .max, true => best.toFloat < candidate.toFloat
  | .max, false => best.toInt < candidate.toInt

def bestOf (op : Extremum) (float : Bool) (first : Constant) (others : List Constant) : Constant :=
  others.foldl (fun best c => if beats op float c best then c else best) first

/-- Collapses the constants among the arguments into the place of the first one. -/
def collapseConstants (span : Span) (op : Extremum) (float : Bool) (args : List Expr) :
    List Expr :=
  let isOther (e : Expr) := !e.isConstant
  match args.filterMap Expr.constant? with
  | [] => args
  | first :: others =>
      let best := bestOf op float first others
      let best := if float then best else .int best.toInt
      args.takeWhile isOther ++ [.ofConstant span best] ++ (args.dropWhile isOther).filter isOther

def extremumAmong (span : Span) (op : Extremum) (float : Bool) (args : List Expr) : Expr :=
  match collapseConstants span op float args with
  | [only] => only
  | kept => .extremum (settled span (numberType float)) op kept

def extremumOf (span : Span) (op : Extremum) (args : List Expr) : Typing Expr := do
  if args.any (·.ty.isFloat) then
    return extremumAmong span op true (← args.mapM fun x => toFloat x.span x)
  else return extremumAmong span op false args

def atan2Of (span : Span) (y x : Expr) : Typing Expr := do
  if !y.ty.isNumeric || !x.ty.isNumeric then reject span .numericParameter
  else
    match bothConstant? y x with
    | some (b, a) =>
        return .ofConstant span
          (.float (Float.atan2 b.toFloat a.toFloat * FloatFn.degreesPerRadian))
    | none =>
        let y ← toFloat y.span y
        let x ← toFloat x.span x
        return .atan2 (settled span .double) y x

/-! ## Calls by name -/

def generatorFunctions : List String :=
  ["random", "frandom", "random2", "randompick", "frandompick"]

/-- Functions of the language by folded name, with the least and greatest number of arguments. -/
def languageFunction? (rng : String) : String → Option (Callee × Nat × Option Nat)
  | "random" => some (.random false rng, 2, some 2)
  | "frandom" => some (.random true rng, 2, some 2)
  | "randompick" => some (.randomPick false rng, 1, none)
  | "frandompick" => some (.randomPick true rng, 1, none)
  | "random2" => some (.random2 rng, 0, some 1)
  | "min" => some (.extremum .min, 2, none)
  | "max" => some (.extremum .max, 2, none)
  | "clamp" => some (.clamp, 3, some 3)
  | "abs" => some (.abs, 1, some 1)
  | "atan2" => some (.atan2, 2, some 2)
  | "vectorangle" => some (.vectorAngle, 2, some 2)
  | _ => none

def checkCount (span : Span) (name : String) (least : Nat) (most : Option Nat) (count : Nat) :
    Typing Unit := do
  if count < least then reject span (.tooFewArguments name least count)
  match most with
  | some most => if most < count then reject span (.tooManyArguments name most count)
  | none => pure ()

def ownFunction? (s : Setting) (name : String) : Option Signature :=
  match s.cls.bind (s.world.findMember · name) with
  | some (.function f, _) => some f
  | _ => none

def calleeOf (span : Span) (name : String) (rng : Option String) (count : Nat) :
    Typing Callee := do
  let s ← read
  if rng.isSome && !generatorFunctions.contains (Text.fold name) then
    reject span (.namedGenerator name)
  match ownFunction? s name with
  | some f =>
      if s.functionKind?.all (· = .static) && f.kind ≠ .static then
        reject span (.callFromStatic f.name)
      checkInvoke span false f count
      return .function f
  | none =>
      match FloatFn.find? name with
      | some fn =>
          checkCount span name 1 (some 1) count
          return .floatFn fn
      | none =>
          match s.world.special? name with
          | some special =>
              if count < special.minArgs then
                reject span (.tooFewParameters special.name special.minArgs count)
              if special.maxArgs < count then
                reject span (.tooManyParameters special.name special.maxArgs count)
              return .special special.number
          | none =>
              match languageFunction? (rng.getD "") (Text.fold name) with
              | some (callee, least, most) =>
                  checkCount span name least most count
                  return callee
              | none => reject span (.unknownCall name)

/-- A settled argument as the callee wants it; `span` is where it was written. -/
def argumentFor (callee : Callee) (index : Nat) (span : Span) (x : Expr) : Typing Expr :=
  match callee with
  | .function f => invokeArgument f index span x
  | .special number => specialArgument number index x
  | .random float _ => numberArgument float span x
  | .randomPick float _ => numberArgument float span x
  | .random2 _ => numberArgument false span x
  | .extremum _ | .clamp => extremumArgument x
  | .floatFn _ | .abs | .atan2 | .vectorAngle => pure x

/-- What a call comes to, with its arguments prepared. -/
def resultOf (span : Span) : Callee → List Expr → Typing Expr
  | .function f, args => return invoked span none f args false
  | .special number, args => return .special (settled span .int) number args false
  | .floatFn fn, [x] => floatFnOf span fn x
  | .random float rng, [low, high] => return randomOf span float rng low high false
  | .randomPick float rng, choices => return randomPickOf span float rng choices
  | .random2 rng, [] => return .random2 (settled span .int) rng (.ofConstant span (.int (-1))) false
  | .random2 rng, [mask] => return .random2 (settled span .int) rng mask false
  | .extremum op, args => extremumOf span op args
  | .clamp, [x, low, high] => do
      let raised ← extremumOf span .max [x, low]
      extremumOf span .min [raised, high]
  | .abs, [x] => absoluteOf span x
  | .atan2, [y, x] => atan2Of span y x
  | .vectorAngle, [x, y] => atan2Of span y x
  | _, _ => reject span .missingArgument

end Typing

end ActorScript
