import ActorScript.Token.Scan

/-! # Reading tokens

A cursor over the tokens of a text, the steps that move it, and the faults they
report.
-/

namespace ActorScript

inductive SyntaxFault where
  /-- Something else was expected than what was found, or than the end of the input. -/
  | expected (what : String) (found : Option String)
  | badArraySize
  | intOutOfRange (value : Nat)
  /-- The nesting is deeper than the number of tokens allows, which no text is. -/
  | tooDeep
  deriving DecidableEq, Repr

namespace SyntaxFault

def code : SyntaxFault → Code
  | expected _ (some _) => .unexpectedToken
  | expected _ none => .unexpectedEnd
  | badArraySize => .malformedLiteral
  | intOutOfRange _ => .malformedLiteral
  | tooDeep => .unexpectedToken

def message : SyntaxFault → String
  | expected what found => "expected " ++ what ++ ", found " ++ found.getD "end of input"
  | badArraySize => "array size must be an integer constant"
  | intOutOfRange value => "integer constant " ++ toString value ++ " is out of range"
  | tooDeep => "nesting is too deep"

end SyntaxFault

structure SyntaxError where
  fault : SyntaxFault
  position : Nat
  span : Span
  deriving DecidableEq, Repr

namespace SyntaxError

def message (e : SyntaxError) : String :=
  "Parse error at token " ++ toString e.position ++ ": " ++ e.fault.message

def toDiagnostic (e : SyntaxError) : Diagnostic :=
  .pointing .error e.fault.code e.fault.message e.span

end SyntaxError

/-- Tokens still to read, and what was seen of the others. -/
structure Cursor where
  rest : List Lexed
  position : Nat := 0
  last : Span := Span.zero
  stop : Span
  /-- Faults that reading went on after. -/
  errors : List SyntaxError := []

def Cursor.ofTokens (tokens : List Lexed) : Cursor :=
  { rest := tokens
    stop := match tokens.getLast? with
      | some t => ⟨t.span.stop, t.span.stop⟩
      | none => Span.zero }

/-- A reader of tokens. A reader that fails keeps the place it failed at. -/
abbrev Reader := ExceptT SyntaxError (StateM Cursor)

namespace Reader

def peek : Reader (Option Token) := do
  return (← get).rest.head?.map Lexed.token

def peekAt (ahead : Nat) : Reader (Option Token) := do
  return (← get).rest[ahead]?.map Lexed.token

def peekSpan : Reader Span := do
  let c ← get
  return match c.rest with
    | t :: _ => t.span
    | [] => c.stop

def lastSpan : Reader Span := do
  return (← get).last

/-- From a span on to the token read last. -/
def since (start : Span) : Reader Span := do
  return start.merge (← lastSpan)

def atEnd : Reader Bool := do
  return (← get).rest.isEmpty

def advance : Reader Unit :=
  modify fun c =>
    match c.rest with
    | t :: rest => { c with rest, position := c.position + 1, last := t.span }
    | [] => c

def errorHere (fault : SyntaxFault) : Reader SyntaxError := do
  return { fault, position := (← get).position, span := ← peekSpan }

def fail (fault : SyntaxFault) : Reader α := do
  throw (← errorHere fault)

def unexpected (what : String) : Reader SyntaxError := do
  errorHere (.expected what ((← peek).map Token.describe))

def isSymbol (mark : Symbol) : Option Token → Bool
  | some (.symbol m) => m == mark
  | _ => false

def isKeyword (word : Keyword) : Option Token → Bool
  | some (.keyword k) => k == word
  | _ => false

def isIdent : Option Token → Bool
  | some (.ident _) => true
  | _ => false

def sees (mark : Symbol) : Reader Bool := do
  return isSymbol mark (← peek)

def eat (mark : Symbol) : Reader Bool := do
  if ← sees mark then
    advance
    return true
  else return false

def eatKeyword (word : Keyword) : Reader Bool := do
  if isKeyword word (← peek) then
    advance
    return true
  else return false

/-- Passes over a symbol that has to be ahead, and gives its span. -/
def expect (mark : Symbol) : Reader Span := do
  let span ← peekSpan
  if ← eat mark then return span
  else throw (← unexpected (Token.symbol mark).describe)

def expectKeyword (word : Keyword) : Reader Span := do
  let span ← peekSpan
  if ← eatKeyword word then return span
  else throw (← unexpected (Token.keyword word).describe)

def expectIdent : Reader String := do
  match ← peek with
  | some (.ident name) =>
      advance
      return name
  | _ => throw (← unexpected "identifier")

/-- A type name: a plain one, or a class between angle brackets. -/
def typeName : Reader String := do
  if ← eatKeyword .classWord then
    let _ ← expect .less
    let name ← expectIdent
    let _ ← expect .greater
    return "class<" ++ name ++ ">"
  else expectIdent

end Reader

end ActorScript
