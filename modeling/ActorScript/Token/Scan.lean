import ActorScript.Decimal.Literal
import ActorScript.Diagnostic.Basic
import ActorScript.Token.Basic

/-! # Cutting a text into tokens

At every point of a text each class of lexemes offers the reading it can make
there, and the longest is taken. Blanks and comments are gaps between tokens. A
point where nothing can be read ends the scan with an error.
-/

namespace ActorScript

inductive Lexeme where
  | gap
  | token (token : Token)
  | fault

/-- A lexeme made of the character at hand and `more` characters behind it. -/
structure Reading where
  lexeme : Lexeme
  more : Nat

namespace Scan

def isGapChar (c : Char) : Bool :=
  c == ' ' || c == '\t' || c == '\r' || c == '\n' || c == '\x0c'

def isWordStart (c : Char) : Bool :=
  c.isAlpha || c == '_'

def isWordChar (c : Char) : Bool :=
  c.isAlphanum || c == '_'

def isHexChar (c : Char) : Bool :=
  (Text.hexDigit? c).isSome

/-- Lower case for keywords, in which the long s and the Kelvin sign stand for s and k. -/
def foldKeywordChar (c : Char) : Char :=
  if c.toNat = 0x17F then 's'
  else if c.toNat = 0x212A then 'k'
  else Text.foldChar c

def readGap (c : Char) (tail : List Char) : Option Reading :=
  if isGapChar c then some ⟨.gap, (tail.takeWhile isGapChar).length⟩ else none

/-- Characters of a block comment up to and with its first end mark. -/
def blockLength? : List Char → Option Nat
  | '*' :: '/' :: _ => some 2
  | _ :: rest => (blockLength? rest).map (· + 1)
  | [] => none

def readComment (c : Char) (tail : List Char) : Option Reading :=
  match c, tail with
  | '/', '/' :: rest => some ⟨.gap, 1 + (rest.takeWhile (· != '\n')).length⟩
  | '/', '*' :: rest => (blockLength? rest).map fun n => ⟨.gap, 1 + n⟩
  | _, _ => none

/-- Exponent part in front of a text: its length and value. -/
def readExponent (cs : List Char) : Option (Nat × Int) :=
  match cs with
  | c :: rest =>
      if c == 'e' || c == 'E' then
        let (sign, digits) := match rest with
          | '+' :: digits => (1, digits)
          | '-' :: digits => (1, digits)
          | digits => (0, digits)
        let digits := digits.takeWhile Char.isDigit
        if digits.isEmpty then none
        else
          let value : Int := Text.decimalValue digits
          some (1 + sign + digits.length, if rest.head? == some '-' then -value else value)
      else none
  | [] => none

def floatReading (whole fraction rest : List Char) (width : Nat) : Reading :=
  let (length, exponent) := (readExponent rest).getD (0, 0)
  ⟨.token (.float (Decimal.literal whole fraction exponent)), width + length⟩

/-- An integer literal, which has to fit 64 bits. -/
def intReading (value more : Nat) : Reading :=
  ⟨if value < UInt64.size then .token (.int (UInt64.ofNat value)) else .fault, more⟩

/-- Digits of a hexadecimal literal behind its first zero. -/
def hexDigits (c : Char) (tail : List Char) : List Char :=
  match c, tail with
  | '0', x :: rest => if x == 'x' || x == 'X' then rest.takeWhile isHexChar else []
  | _, _ => []

def readNumber (c : Char) (tail : List Char) : Option Reading :=
  if c.isDigit then
    let hex := hexDigits c tail
    if !hex.isEmpty then
      some (intReading (Text.ofDigits 16 (hex.filterMap Text.hexDigit?)) (1 + hex.length))
    else
      let digits := tail.takeWhile Char.isDigit
      let rest := tail.dropWhile Char.isDigit
      let whole := c :: digits
      match rest with
      | '.' :: rest =>
          let fraction := rest.takeWhile Char.isDigit
          some (floatReading whole fraction (rest.dropWhile Char.isDigit)
            (digits.length + 1 + fraction.length))
      | rest =>
          if (readExponent rest).isSome then some (floatReading whole [] rest digits.length)
          else some (intReading (Text.decimalValue whole) digits.length)
  else if c == '.' then
    let fraction := tail.takeWhile Char.isDigit
    if fraction.isEmpty then none
    else some (floatReading [] fraction (tail.dropWhile Char.isDigit) fraction.length)
  else none

/-- Characters up to and with the closing quote of a string, or those that can still belong
to one that is never closed. -/
def stringLength : List Char → Nat × Bool
  | [] => (0, false)
  | '"' :: _ => (1, true)
  | '\\' :: '\n' :: _ => (1, false)
  | '\\' :: _ :: rest =>
      let (n, closed) := stringLength rest
      (n + 2, closed)
  | _ :: rest =>
      let (n, closed) := stringLength rest
      (n + 1, closed)

def unescape : List Char → List Char
  | [] => []
  | '\\' :: 'n' :: rest => '\n' :: unescape rest
  | '\\' :: 't' :: rest => '\t' :: unescape rest
  | '\\' :: 'r' :: rest => '\r' :: unescape rest
  | '\\' :: c :: rest => c :: unescape rest
  | c :: rest => c :: unescape rest

def readString (c : Char) (tail : List Char) : Option Reading :=
  if c == '"' then
    let (n, closed) := stringLength tail
    if closed then
      some ⟨.token (.string (String.ofList (unescape (tail.take (n - 1))))), n⟩
    else some ⟨.fault, n⟩
  else none

def readName (c : Char) (tail : List Char) : Option Reading :=
  if c == '\'' then
    let body := tail.takeWhile fun d => d != '\'' && d != '\n'
    if (tail.drop body.length).head? == some '\'' then
      some ⟨.token (.name (String.ofList body)), body.length + 1⟩
    else some ⟨.fault, body.length⟩
  else none

def readIdent (c : Char) (tail : List Char) : Option Reading :=
  if isWordStart c then
    let more := tail.takeWhile isWordChar
    some ⟨.token (.ident (String.ofList (c :: more))), more.length⟩
  else none

def keywordAt? (cs : List Char) : Option Keyword :=
  Keyword.all.find? fun word =>
    (cs.take word.text.length).map foldKeywordChar == word.text.toList

def readKeyword (c : Char) (tail : List Char) : Option Reading :=
  (keywordAt? (c :: tail)).map fun word => ⟨.token (.keyword word), word.text.length - 1⟩

def readSymbol (c : Char) (tail : List Char) : List Reading :=
  (Symbol.all.filter fun mark => mark.text.toList.isPrefixOf (c :: tail)).map fun mark =>
    ⟨.token (.symbol mark), mark.text.length - 1⟩

/-- Characters in front of a text with which some keyword begins. -/
def keywordStart (cs : List Char) : Nat :=
  let common (word : Keyword) : Nat :=
    ((cs.zip word.text.toList).takeWhile fun (c, k) => foldKeywordChar c == k).length
  (Keyword.all.map common).foldl max 0

/-- Every reading offered at a point; of two of one length the earlier counts. -/
def readings (c : Char) (tail : List Char) : List Reading :=
  [readGap c tail, readComment c tail, readNumber c tail, readString c tail, readName c tail,
    readKeyword c tail, readIdent c tail].filterMap id ++ readSymbol c tail

/-- The longest reading at a point. Where there is none, the fault covers what could have
begun a keyword, and at least one character. -/
def reading (c : Char) (tail : List Char) : Reading :=
  match readings c tail with
  | [] => ⟨.fault, keywordStart (c :: tail) - 1⟩
  | first :: others => others.foldl (fun best r => if best.more < r.more then r else best) first

end Scan

structure ScanError where
  position : Nat
  snippet : String
  deriving DecidableEq, Repr

namespace ScanError

def suggestion (e : ScanError) : String :=
  match e.snippet.toList.head? with
  | some '"' => "Close the string with a matching '\"'"
  | some '\'' => "Names are written on one line between single quotes: 'Name'"
  | some '/' => "Close the block comment with '*/'"
  | some c =>
      if c == '$' || c == '@' || c == '#' || c.toNat == 0x60 then
        "'" ++ e.snippet ++ "' has no meaning in an expression; remove it"
      else ""
  | none => ""

def message (e : ScanError) : String :=
  s!"Lex error at position {e.position}: '" ++ e.snippet ++ "'. " ++ e.suggestion

def span (e : ScanError) : Span :=
  ⟨e.position, e.position + max 1 (Text.byteCount e.snippet.toList)⟩

def toDiagnostic (e : ScanError) : Diagnostic :=
  { Diagnostic.pointing .error .unexpectedCharacter
      ("unexpected character(s) '" ++ e.snippet ++ "'") e.span with
    suggestion := if e.suggestion.isEmpty then none else some e.suggestion }

end ScanError

structure Lexed where
  token : Token
  span : Span

/-- Scans a text that begins at `offset`, after passing over the first `skip` characters. -/
def scanFrom (offset skip : Nat) : List Char → Except ScanError (List Lexed)
  | [] => .ok []
  | c :: tail =>
      match skip with
      | skip + 1 => scanFrom (offset + Text.charBytes c) skip tail
      | 0 =>
          let r := Scan.reading c tail
          let covered := c :: tail.take r.more
          let stop := offset + Text.byteCount covered
          match r.lexeme with
          | .fault => .error ⟨offset, String.ofList covered⟩
          | .gap => scanFrom (offset + Text.charBytes c) r.more tail
          | .token token => do
              let rest ← scanFrom (offset + Text.charBytes c) r.more tail
              .ok (⟨token, offset, stop⟩ :: rest)

def scan (text : String) : Except ScanError (List Lexed) :=
  scanFrom 0 0 text.toList

end ActorScript
