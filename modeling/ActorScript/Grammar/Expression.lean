import ActorScript.Expr.Basic
import ActorScript.Grammar.Cursor

/-! # The grammar of expressions

Assignments associate to the right and bind loosest, then come conditionals, the
binary operators by power, signs and steps, powers, and what follows an operand.
Every function takes a budget that bounds the depth of its calls; the number of
tokens ahead gives more than is ever used.
-/

namespace ActorScript.Reader

/-- A binary operator; those that decide early have a node of their own. -/
inductive InfixOp where
  | plain (op : BinOp)
  | logical (op : LogicalOp)

/-- Binding power of a binary operator, the loosest first. -/
def infixOp? : Symbol → Option (Nat × InfixOp)
  | .orOr => some (1, .logical .or)
  | .andAnd => some (2, .logical .and)
  | .pipe => some (3, .plain .bitOr)
  | .caret => some (4, .plain .bitXor)
  | .amp => some (5, .plain .bitAnd)
  | .eqEq => some (6, .plain .eq)
  | .notEq => some (6, .plain .ne)
  | .approxEq => some (6, .plain .approxEq)
  | .less => some (7, .plain .lt)
  | .greater => some (7, .plain .gt)
  | .lessEq => some (7, .plain .le)
  | .greaterEq => some (7, .plain .ge)
  | .ltGtEq => some (7, .plain .threeWay)
  | .shl => some (8, .plain .shl)
  | .shr => some (8, .plain .shr)
  | .ushr => some (8, .plain .ushr)
  | .plus => some (9, .plain .add)
  | .minus => some (9, .plain .sub)
  | .star => some (10, .plain .mul)
  | .slash => some (10, .plain .div)
  | .percent => some (10, .plain .mod)
  | _ => none

/-- What an assignment symbol does to the old value first, if anything. -/
def assignOp? : Symbol → Option (Option BinOp)
  | .assign => some none
  | .plusAssign => some (some .add)
  | .minusAssign => some (some .sub)
  | .starAssign => some (some .mul)
  | .slashAssign => some (some .div)
  | .percentAssign => some (some .mod)
  | .shlAssign => some (some .shl)
  | .shrAssign => some (some .shr)
  | .ushrAssign => some (some .ushr)
  | .ampAssign => some (some .bitAnd)
  | .pipeAssign => some (some .bitOr)
  | .caretAssign => some (some .bitXor)
  | _ => none

def unaryOp? : Symbol → Option UnaryOp
  | .minus => some .minus
  | .plus => some .plus
  | .bang => some .boolNot
  | .tilde => some .bitNot
  | _ => none

def stepOp? : Symbol → Option StepOp
  | .plusPlus => some .increment
  | .minusMinus => some .decrement
  | _ => none

def storageOp? : Keyword → Option StorageOp
  | .sizeOf => some .size
  | .alignOf => some .align
  | _ => none

/-- Types whose names convert a value when they are called. -/
def castTypes : List String :=
  ["int", "uint", "int8", "int16", "uint8", "uint16", "float", "double", "bool", "name", "string",
    "sound", "color", "state"]

def isCastType (name : String) : Bool :=
  castTypes.any (Text.sameName · name)

def InfixOp.apply (op : InfixOp) (left right : Expr) : Expr :=
  let m : Mark := { span := left.span.merge right.span }
  match op with
  | .plain op => .binary m op left right
  | .logical op => .logical m op left right

/-- An assignment. A compound one reads its left side once, through a node that stands for it. -/
def assignment (op : Option BinOp) (opSpan : Span) (left right : Expr) : Expr :=
  let m : Mark := { span := left.span.merge right.span }
  match op with
  | none => .assign m left right
  | some op =>
      .assign m left
        (.binary { span := opSpan.merge right.span } op (.assigned { span := opSpan }) right)

def peekSymbol : Reader (Option Symbol) := do
  match ← peek with
  | some (.symbol mark) => return some mark
  | _ => return none

/-- Value of an integer literal; those above the signed range are unsigned. -/
def intLiteral (value : UInt64) : Reader Constant := do
  if value.toNat < 0x80000000 then return .int (Int32.ofNat value.toNat)
  else if value.toNat < UInt32.size then return .uint (UInt32.ofNat value.toNat)
  else fail (.intOutOfRange value.toNat)

def literal? : Token → Reader (Option Constant)
  | .int value => return some (← intLiteral value)
  | .float value => return some (.float value)
  | .string text => return some (.string text)
  | .name text => return some (.name text)
  | .keyword .trueWord => return some (.bool true)
  | .keyword .falseWord => return some (.bool false)
  | .keyword .nullWord => return some .null
  | _ => return none

/-- Whether a generator in brackets and arguments are ahead. -/
def seesGenerator : Reader Bool := do
  return isSymbol .lBracket (← peek) && isIdent (← peekAt 1) &&
    isSymbol .rBracket (← peekAt 2) && isSymbol .lParen (← peekAt 3)

mutual

/-- An expression at its loosest. -/
def assigning : Nat → Reader Expr
  | 0 => fail .tooDeep
  | budget + 1 => do
      let left ← conditional budget
      match (← peekSymbol).bind assignOp? with
      | none => return left
      | some op =>
          let opSpan ← peekSpan
          advance
          let right ← assigning budget
          return assignment op opSpan left right

def conditional : Nat → Reader Expr
  | 0 => fail .tooDeep
  | budget + 1 => do
      let cond ← binary budget 0
      if ← eat .question then
        let whenTrue ← assigning budget
        let _ ← expect .colon
        let whenFalse ← conditional budget
        return .conditional { span := cond.span.merge whenFalse.span } cond whenTrue whenFalse
      else return cond

def binary : Nat → Nat → Reader Expr
  | 0, _ => fail .tooDeep
  | budget + 1, power => do
      let left ← signed budget
      operators budget power left

def operators : Nat → Nat → Expr → Reader Expr
  | 0, _, _ => fail .tooDeep
  | budget + 1, power, left => do
      match (← peekSymbol).bind infixOp? with
      | none => return left
      | some (p, op) =>
          if p ≤ power then return left
          else
            advance
            let right ← binary budget p
            operators budget power (op.apply left right)

/-- An operand with what stands in front of it. -/
def signed : Nat → Reader Expr
  | 0 => fail .tooDeep
  | budget + 1 => do
      let start ← peekSpan
      match ← peek with
      | some (.symbol mark) =>
          match unaryOp? mark, stepOp? mark with
          | some op, _ =>
              advance
              let operand ← signed budget
              return .unary { span := start.merge operand.span } op operand
          | none, some op =>
              advance
              let operand ← signed budget
              return .step { span := start.merge operand.span } op true operand
          | none, none => raised budget
      | some (.keyword word) =>
          match storageOp? word with
          | some op =>
              advance
              let operand ← inParens budget
              return .storage { span := ← since start } op operand
          | none => raised budget
      | _ => raised budget

/-- Powers bind tighter than signs and associate to the right. -/
def raised : Nat → Reader Expr
  | 0 => fail .tooDeep
  | budget + 1 => do
      let base ← operand budget
      if ← eat .starStar then
        let exponent ← signed budget
        return .binary { span := base.span.merge exponent.span } .pow base exponent
      else return base

def operand : Nat → Reader Expr
  | 0 => fail .tooDeep
  | budget + 1 => do
      let first ← primary budget
      selectors budget first

def selectors : Nat → Expr → Reader Expr
  | 0, _ => fail .tooDeep
  | budget + 1, e => do
      match ← peekSymbol with
      | some .dot =>
          advance
          let name ← expectIdent
          if ← sees .lParen then
            let args ← arguments budget
            selectors budget (.memberCall { span := ← since e.span } e name args)
          else selectors budget (.member { span := ← since e.span } e name)
      | some .lBracket =>
          advance
          let index ← assigning budget
          let _ ← expect .rBracket
          selectors budget (.element { span := ← since e.span } e index)
      | some mark =>
          match stepOp? mark with
          | some op =>
              advance
              selectors budget (.step { span := ← since e.span } op false e)
          | none => return e
      | none => return e

def arguments : Nat → Reader (List Expr)
  | 0 => fail .tooDeep
  | budget + 1 => do
      let _ ← expect .lParen
      if ← eat .rParen then return []
      else
        let args ← argumentList budget
        let _ ← expect .rParen
        return args

def argumentList : Nat → Reader (List Expr)
  | 0 => fail .tooDeep
  | budget + 1 => do
      let first ← assigning budget
      if ← eat .comma then
        let rest ← argumentList budget
        return first :: rest
      else return [first]

def inParens : Nat → Reader Expr
  | 0 => fail .tooDeep
  | budget + 1 => do
      let _ ← expect .lParen
      let e ← assigning budget
      let _ ← expect .rParen
      return e

def primary : Nat → Reader Expr
  | 0 => fail .tooDeep
  | budget + 1 => do
      let start ← peekSpan
      match ← peek with
      | none => throw (← unexpected "an expression")
      | some token =>
          match ← literal? token with
          | some value =>
              advance
              return .ofConstant start value
          | none =>
              match token with
              | .keyword .selfWord =>
                  advance
                  return .selfRef { span := start }
              | .symbol .lParen =>
                  let e ← inParens budget
                  return e.withSpan (← since start)
              | .keyword .classWord =>
                  let target ← typeName
                  let operand ← inParens budget
                  return .explicitCast { span := ← since start } operand target
              | .ident name =>
                  advance
                  named budget name start
              | _ => throw (← unexpected "an expression")

/-- What follows a name: a generator and arguments, an operand to convert, arguments, or
nothing. -/
def named : Nat → String → Span → Reader Expr
  | 0, _, _ => fail .tooDeep
  | budget + 1, name, start => do
      if ← seesGenerator then
        advance
        let rng ← expectIdent
        let _ ← expect .rBracket
        let args ← arguments budget
        return .call { span := ← since start } name (some rng) args
      else if !(← sees .lParen) then
        return .identifier { span := start } name
      else if isCastType name then
        let operand ← inParens budget
        return .explicitCast { span := ← since start } operand (Text.fold name)
      else
        let args ← arguments budget
        return .call { span := ← since start } name none args

end

/-- Depth of calls that the tokens ahead can ask for. -/
def budgetFor (tokens : Nat) : Nat :=
  16 * (tokens + 1)

def budget : Reader Nat := do
  return budgetFor (← get).rest.length

def expression : Reader Expr := do
  assigning (← budget)

def parenthesized : Reader Expr := do
  inParens (← budget)

def wholeExpression : Reader Expr := do
  let e ← expression
  if ← atEnd then return e
  else throw (← unexpected "end of expression")

end ActorScript.Reader
