import ActorScript.Grammar.Expression
import ActorScript.Stmt

/-! # The grammar of statements

A body is a list of statements. After a fault reading goes on behind the next
semicolon, or at the next closing brace, until there are too many faults.
-/

namespace ActorScript

/-- Faults after which reading gives up. -/
def maxSyntaxErrors : Nat := 20

namespace Reader

/-- Tokens up to and with the next semicolon, or up to the closing brace of the block around;
`depth` blocks have been opened meanwhile. -/
def skipLength : Nat → List Lexed → Nat
  | _, [] => 0
  | depth, t :: rest =>
      match t.token with
      | .symbol .lBrace => skipLength (depth + 1) rest + 1
      | .symbol .rBrace => if depth == 0 then 0 else skipLength (depth - 1) rest + 1
      | .symbol .semi => if depth == 0 then 1 else skipLength depth rest + 1
      | _ => skipLength depth rest + 1

def advanceBy : Nat → Reader Unit
  | 0 => pure ()
  | n + 1 => do
      advance
      advanceBy n

def skipStatement : Reader Unit := do
  advanceBy (skipLength 0 (← get).rest)

def recordError (e : SyntaxError) : Reader Unit :=
  modify fun c => { c with errors := c.errors ++ [e] }

def errorCount : Reader Nat := do
  return (← get).errors.length

/-- A type and a name are ahead. A class in angle brackets counts only if a name follows it. -/
def seesDeclaration : Reader Bool := do
  match ← peek with
  | some (.ident _) => return isIdent (← peekAt 1)
  | some (.keyword .classWord) => return isSymbol .less (← peekAt 1) && isIdent (← peekAt 4)
  | _ => return false

def arraySize : Reader UInt64 := do
  let token ← peek
  advance
  match token with
  | some (.int size) => return size
  | _ => fail .badArraySize

def declarator (type : String) : Reader Stmt := do
  let start ← peekSpan
  let name ← expectIdent
  let type ← if ← eat .lBracket then
      let size ← arraySize
      let _ ← expect .rBracket
      pure (type ++ "[" ++ toString size.toNat ++ "]")
    else pure type
  let value ← if ← eat .assign then some <$> expression else pure none
  return .declare (← since start) name type value none

/-- Things between commas, at most so many. -/
def commaList (item : Reader α) : Nat → Reader (List α)
  | 0 => fail .tooDeep
  | budget + 1 => do
      let first ← item
      if ← eat .comma then
        let rest ← commaList item budget
        return first :: rest
      else return [first]

/-- One statement by itself, or a sequence of several. -/
def sequenceFrom (start : Span) : List Stmt → Reader Stmt
  | [only] => return only
  | many => return .sequence (← since start) many

def declaration : Reader Stmt := do
  let start ← peekSpan
  let type ← typeName
  let declared ← commaList (declarator type) (← budget)
  sequenceFrom start declared

def expressionStatement : Reader Stmt := do
  let e ← expression
  return .expr e.span e

/-- Expressions between commas, as the first and last part of a for loop. -/
def expressionList : Reader Stmt := do
  let start ← peekSpan
  let list ← commaList expressionStatement (← budget)
  sequenceFrom start list

/-- Something, unless the symbol that ends it is ahead. -/
def unlessSees (mark : Symbol) (item : Reader α) : Reader (Option α) := do
  if ← sees mark then return none else some <$> item

def leaving (word : Keyword) (start : Span) : Reader Stmt := do
  match word with
  | .breakWord =>
      let _ ← expect .semi
      return .jump (← since start) .break
  | .continueWord =>
      let _ ← expect .semi
      return .jump (← since start) .continue
  | _ =>
      let value ← unlessSees .semi expression
      let _ ← expect .semi
      return .ret (← since start) value

def simpleStatement (start : Span) : Reader Stmt := do
  if ← seesDeclaration then
    let decl ← declaration
    let _ ← expect .semi
    return decl
  else
    let e ← expression
    let _ ← expect .semi
    return .expr (← since start) e

mutual

def statement : Nat → Reader Stmt
  | 0 => fail .tooDeep
  | budget + 1 => do
      let start ← peekSpan
      match ← peek with
      | some (.symbol .lBrace) => blockStatement budget
      | some (.symbol .semi) =>
          advance
          return .nop start
      | some (.keyword .ifWord) => branchStatement budget
      | some (.keyword .whileWord) =>
          advance
          let cond ← parenthesized
          let body ← statement budget
          return .whileLoop (← since start) cond body
      | some (.keyword .doWord) =>
          advance
          let body ← statement budget
          let _ ← expectKeyword .whileWord
          let cond ← parenthesized
          let _ ← expect .semi
          return .doWhile (← since start) body cond
      | some (.keyword .forWord) => forStatement budget
      | some (.keyword .breakWord) =>
          advance
          leaving .breakWord start
      | some (.keyword .continueWord) =>
          advance
          leaving .continueWord start
      | some (.keyword .returnWord) =>
          advance
          leaving .returnWord start
      | _ => simpleStatement start

def blockStatement : Nat → Reader Stmt
  | 0 => fail .tooDeep
  | budget + 1 => do
      let start ← expect .lBrace
      let body ← statements budget
      let _ ← expect .rBrace
      return .block (← since start) body []

def branchStatement : Nat → Reader Stmt
  | 0 => fail .tooDeep
  | budget + 1 => do
      let start ← expectKeyword .ifWord
      let cond ← parenthesized
      let whenTrue ← statement budget
      if ← eatKeyword .elseWord then
        let whenFalse ← statement budget
        return .branch (← since start) cond (some whenTrue) (some whenFalse)
      else return .branch (← since start) cond (some whenTrue) none

def forStatement : Nat → Reader Stmt
  | 0 => fail .tooDeep
  | budget + 1 => do
      let start ← expectKeyword .forWord
      let _ ← expect .lParen
      let first ← unlessSees .semi do
        if ← seesDeclaration then declaration else expressionList
      let _ ← expect .semi
      let cond ← unlessSees .semi expression
      let _ ← expect .semi
      let step ← unlessSees .rParen expressionList
      let _ ← expect .rParen
      let body ← statement budget
      return .forLoop (← since start) first cond step body

/-- Statements up to a closing brace or the end, going on after each fault. -/
def statements : Nat → Reader (List Stmt)
  | 0 => fail .tooDeep
  | budget + 1 => do
      if (← atEnd) || (← sees .rBrace) || maxSyntaxErrors ≤ (← errorCount) then return []
      else
        let before := (← get).position
        let read ← tryCatch (some <$> statement budget) fun e => do
          recordError e
          skipStatement
          if (← get).position == before then advance
          return none
        let rest ← statements budget
        return read.toList ++ rest

end

/-- Statements of a whole text. A closing brace that closes nothing is a fault. -/
def bodyStatements : Nat → Reader (List Stmt)
  | 0 => fail .tooDeep
  | rounds + 1 => do
      let body ← statements (← budget)
      if (← atEnd) || maxSyntaxErrors ≤ (← errorCount) then return body
      else
        recordError (← unexpected "a statement")
        advance
        let more ← bodyStatements rounds
        return body ++ more

def wholeBody : Reader Stmt := do
  let start ← peekSpan
  let body ← bodyStatements (← budget)
  return .block (start.merge (← get).stop) body []

end Reader

inductive SyntaxFailure where
  | scan (error : ScanError)
  | parse (errors : List SyntaxError)
  deriving DecidableEq, Repr

namespace SyntaxFailure

def message : SyntaxFailure → String
  | scan e => e.message
  | parse [] => "parse failed"
  | parse [only] => only.message
  | parse (first :: rest) => first.message ++ " (and " ++ toString rest.length ++ " more)"

def diagnostics : SyntaxFailure → List Diagnostic
  | scan e => [e.toDiagnostic]
  | parse errors => errors.map SyntaxError.toDiagnostic

end SyntaxFailure

def readTokens (reader : Reader α) (text : String) : Except SyntaxFailure α :=
  match scan text with
  | .error e => .error (.scan e)
  | .ok tokens =>
      match reader.run.run (Cursor.ofTokens tokens) with
      | (.error e, c) => .error (.parse (c.errors ++ [e]))
      | (.ok a, c) => if c.errors.isEmpty then .ok a else .error (.parse c.errors)

def parseExpression (text : String) : Except SyntaxFailure Expr :=
  readTokens Reader.wholeExpression text

def parseBody (text : String) : Except SyntaxFailure Stmt :=
  readTokens Reader.wholeBody text

end ActorScript
