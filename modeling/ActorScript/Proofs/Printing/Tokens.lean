import ActorScript.Grammar.Expression

/-! # Writing expressions

The tokens of a tree as the grammar gives it. Trees hold together from some level on, the loosest
are assignments. A place takes trees from its own level on as they are, and all others in
parentheses.
-/

namespace ActorScript

/-! ## Trees without their spans -/

namespace Expr

def bareMark (m : Mark) : Mark :=
  { m with span := Span.zero }

mutual

/-- Same tree with every span forgotten. -/
@[simp] def bare : Expr → Expr
  | constant m value => constant (bareMark m) value
  | identifier m name => identifier (bareMark m) name
  | member m object name => member (bareMark m) object.bare name
  | call m name rng args => call (bareMark m) name rng (bareAll args)
  | memberCall m object name args => memberCall (bareMark m) object.bare name (bareAll args)
  | explicitCast m operand target => explicitCast (bareMark m) operand.bare target
  | typeCast m operand target quiet => typeCast (bareMark m) operand.bare target quiet
  | cast m kind operand => cast (bareMark m) kind operand.bare
  | intCast m operand quiet => intCast (bareMark m) operand.bare quiet
  | classCast m operand target => classCast (bareMark m) operand.bare target
  | unary m op operand => unary (bareMark m) op operand.bare
  | storage m op operand => storage (bareMark m) op operand.bare
  | step m op before operand => step (bareMark m) op before operand.bare
  | assign m target value => assign (bareMark m) target.bare value.bare
  | assigned m => assigned (bareMark m)
  | binary m op left right => binary (bareMark m) op left.bare right.bare
  | logical m op left right => logical (bareMark m) op left.bare right.bare
  | conditional m cond whenTrue whenFalse =>
      conditional (bareMark m) cond.bare whenTrue.bare whenFalse.bare
  | selfRef m => selfRef (bareMark m)
  | localVar m id => localVar (bareMark m) id
  | field m object offset readonly => field (bareMark m) object.bare offset readonly
  | element m array index => element (bareMark m) array.bare index.bare
  | invoke m object f args tail => invoke (bareMark m) (bareOption object) f (bareAll args) tail
  | special m number args tail => special (bareMark m) number (bareAll args) tail
  | floatFn m fn arg => floatFn (bareMark m) fn arg.bare
  | random m float rng low high tail => random (bareMark m) float rng low.bare high.bare tail
  | random2 m rng mask tail => random2 (bareMark m) rng mask.bare tail
  | randomPick m float rng choices => randomPick (bareMark m) float rng (bareAll choices)
  | extremum m op args => extremum (bareMark m) op (bareAll args)
  | abs m operand => abs (bareMark m) operand.bare
  | atan2 m y x => atan2 (bareMark m) y.bare x.bare
  | stateIndex m index => stateIndex (bareMark m) index
  | runtimeState m index tail => runtimeState (bareMark m) index.bare tail
  | stateLabel m text names tail => stateLabel (bareMark m) text names tail

@[simp] def bareAll : List Expr → List Expr
  | [] => []
  | e :: rest => e.bare :: bareAll rest

@[simp] def bareOption : Option Expr → Option Expr
  | none => none
  | some e => some e.bare

end

end Expr

/-! ## Operators -/

namespace BinOp

def power : BinOp → Nat
  | bitOr => 3
  | bitXor => 4
  | bitAnd => 5
  | eq | ne | approxEq => 6
  | lt | gt | le | ge | threeWay => 7
  | shl | shr | ushr => 8
  | add | sub => 9
  | mul | div | mod => 10
  | pow => 11

def mark : BinOp → Symbol
  | add => .plus
  | sub => .minus
  | mul => .star
  | div => .slash
  | mod => .percent
  | pow => .starStar
  | lt => .less
  | gt => .greater
  | le => .lessEq
  | ge => .greaterEq
  | eq => .eqEq
  | ne => .notEq
  | approxEq => .approxEq
  | threeWay => .ltGtEq
  | shl => .shl
  | shr => .shr
  | ushr => .ushr
  | bitAnd => .amp
  | bitOr => .pipe
  | bitXor => .caret

/-- The symbol that assigns the result of an operator to its left operand. -/
def assignMark? : BinOp → Option Symbol
  | add => some .plusAssign
  | sub => some .minusAssign
  | mul => some .starAssign
  | div => some .slashAssign
  | mod => some .percentAssign
  | shl => some .shlAssign
  | shr => some .shrAssign
  | ushr => some .ushrAssign
  | bitAnd => some .ampAssign
  | bitOr => some .pipeAssign
  | bitXor => some .caretAssign
  | pow | lt | gt | le | ge | eq | ne | approxEq | threeWay => none

end BinOp

namespace LogicalOp

def power : LogicalOp → Nat
  | or => 1
  | and => 2

def mark : LogicalOp → Symbol
  | or => .orOr
  | and => .andAnd

end LogicalOp

def UnaryOp.mark : UnaryOp → Symbol
  | plus => .plus
  | minus => .minus
  | bitNot => .tilde
  | boolNot => .bang

def StepOp.mark : StepOp → Symbol
  | increment => .plusPlus
  | decrement => .minusMinus

def StorageOp.word : StorageOp → Keyword
  | size => .sizeOf
  | align => .alignOf

/-! ## Tokens -/

def Constant.token (c : Constant) : Token :=
  match c.value with
  | .int v =>
      if c.ty = .bool then .keyword (if v = 0 then .falseWord else .trueWord)
      else .int v.toUInt32.toUInt64
  | .float v => .float v
  | .name text => .name text
  | .string text => .string text
  | .pointer _ => .keyword .nullWord

def classNameIn (type : String) : String :=
  String.ofList (type.toList.drop 6).dropLast

/-- The type of a conversion: a plain one, or a class between angle brackets. -/
def castTokens (type : String) : List Token :=
  if type ∈ Reader.castTypes then [.ident type]
  else [.keyword .classWord, .symbol .less, .ident (classNameIn type), .symbol .greater]

def inParentheses (tokens : List Token) : List Token :=
  .symbol .lParen :: (tokens ++ [.symbol .rParen])

namespace Expr

/-- How tight a tree holds together: assignments, conditionals, the binary operators by power,
what stands behind a sign, and operands with what follows them. -/
def level : Expr → Nat
  | assign .. => 0
  | conditional .. => 1
  | logical _ op _ _ => op.power + 1
  | binary _ op _ _ => op.power + 1
  | unary .. | storage .. | step _ _ true _ => 12
  | _ => 13

/-- Tokens of a tree in a place that takes trees from a level on. -/
def enclose (place : Nat) (e : Expr) (tokens : List Token) : List Token :=
  if e.level < place then inParentheses tokens else tokens

mutual

/-- Tokens of a tree that stands by itself. -/
@[simp] def tokens : Expr → List Token
  | constant _ value => [value.token]
  | identifier _ name => [.ident name]
  | member _ object name => object.enclose 13 object.tokens ++ [.symbol .dot, .ident name]
  | call _ name none args => .ident name :: inParentheses (listTokens args)
  | call _ name (some rng) args =>
      [.ident name, .symbol .lBracket, .ident rng, .symbol .rBracket] ++
        inParentheses (listTokens args)
  | memberCall _ object name args =>
      object.enclose 13 object.tokens ++
        (.symbol .dot :: .ident name :: inParentheses (listTokens args))
  | explicitCast _ operand target => castTokens target ++ inParentheses operand.tokens
  | unary _ op operand => .symbol op.mark :: operand.enclose 12 operand.tokens
  | storage _ op operand => .keyword op.word :: inParentheses operand.tokens
  | step _ op true operand => .symbol op.mark :: operand.enclose 12 operand.tokens
  | step _ op false operand => operand.enclose 13 operand.tokens ++ [.symbol op.mark]
  | assign _ target (binary _ op (assigned _) right) =>
      target.enclose 1 target.tokens ++ (.symbol (op.assignMark?.getD .assign) :: right.tokens)
  | assign _ target value => target.enclose 1 target.tokens ++ (.symbol .assign :: value.tokens)
  | binary _ .pow left right =>
      left.enclose 13 left.tokens ++ (.symbol .starStar :: right.enclose 12 right.tokens)
  | binary _ op left right =>
      left.enclose (op.power + 1) left.tokens ++
        (.symbol op.mark :: right.enclose (op.power + 2) right.tokens)
  | logical _ op left right =>
      left.enclose (op.power + 1) left.tokens ++
        (.symbol op.mark :: right.enclose (op.power + 2) right.tokens)
  | conditional _ cond whenTrue whenFalse =>
      cond.enclose 2 cond.tokens ++ (.symbol .question :: (whenTrue.tokens ++
        (.symbol .colon :: whenFalse.enclose 1 whenFalse.tokens)))
  | selfRef _ => [.keyword .selfWord]
  | element _ array index =>
      array.enclose 13 array.tokens ++ (.symbol .lBracket :: (index.tokens ++ [.symbol .rBracket]))
  | _ => []

/-- Tokens of arguments with commas between them. -/
@[simp] def listTokens : List Expr → List Token
  | [] => []
  | e :: rest => e.tokens ++ moreTokens rest

/-- Tokens of arguments with a comma before each. -/
@[simp] def moreTokens : List Expr → List Token
  | [] => []
  | e :: rest => .symbol .comma :: (e.tokens ++ moreTokens rest)

end

/-- Tokens of a tree in a place that takes trees from a level on, with parentheses only where it
is looser than that. -/
def tokensAt (place : Nat) (e : Expr) : List Token :=
  e.enclose place e.tokens

end Expr

/-- The constants that have literals. -/
inductive Constant.Literal : Constant → Prop
  | int {v : Int32} : 0 ≤ v → Literal (.int v)
  | uint {v : UInt32} : 0x80000000 ≤ v.toNat → Literal (.uint v)
  | float {v : Float} : Literal (.float v)
  | string {text : String} : Literal (.string text)
  | name {text : String} : Literal (.name text)
  | bool {b : Bool} : Literal (.bool b)
  | null : Literal .null

end ActorScript
