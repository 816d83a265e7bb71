import ActorScript.Json.Basic

/-! # Reading JSON

A strict reader: blanks are the four of the format, a number has no leading
zero, a string holds no raw control character, and nothing follows the value.
-/

namespace ActorScript.Json

def isBlank (c : Char) : Bool :=
  c == ' ' || c == '\t' || c == '\n' || c == '\r'

def skipBlanks (cs : List Char) : List Char :=
  cs.dropWhile isBlank

/-- A character of a string, or the code unit of a numeric escape. -/
inductive Piece where
  | char (c : Char)
  | unit (code : Nat)

/-- The character a one-letter escape stands for. -/
def escaped? : Char → Option Char
  | '"' => some '"'
  | '\\' => some '\\'
  | '/' => some '/'
  | 'b' => some '\x08'
  | 'f' => some '\x0c'
  | 'n' => some '\n'
  | 'r' => some '\r'
  | 't' => some '\t'
  | _ => none

/-- Pieces of a string up to its closing quote, and the text behind it. -/
def readPieces : List Char → Option (List Piece × List Char)
  | [] => none
  | '"' :: rest => some ([], rest)
  | '\\' :: 'u' :: a :: b :: c :: d :: rest => do
      let digits ← [a, b, c, d].mapM Text.hexDigit?
      let (pieces, rest) ← readPieces rest
      some (.unit (Text.ofDigits 16 digits) :: pieces, rest)
  | '\\' :: c :: rest => do
      let e ← escaped? c
      let (pieces, rest) ← readPieces rest
      some (.char e :: pieces, rest)
  | c :: rest => do
      if c.toNat < 0x20 then none
      let (pieces, rest) ← readPieces rest
      some (.char c :: pieces, rest)

def isHighSurrogate (code : Nat) : Bool :=
  0xD800 ≤ code && code ≤ 0xDBFF

def isLowSurrogate (code : Nat) : Bool :=
  0xDC00 ≤ code && code ≤ 0xDFFF

/-- Joins surrogate pairs; none when one stands alone. -/
def joinPieces : List Piece → Option (List Char)
  | [] => some []
  | .char c :: rest => (joinPieces rest).map (c :: ·)
  | .unit high :: .unit low :: rest =>
      if isHighSurrogate high then
        if isLowSurrogate low then
          (joinPieces rest).map
            (Char.ofNat (0x10000 + (high - 0xD800) * 0x400 + (low - 0xDC00)) :: ·)
        else none
      else if isLowSurrogate high then none
      else (joinPieces (.unit low :: rest)).map (Char.ofNat high :: ·)
  | .unit code :: rest =>
      if isHighSurrogate code || isLowSurrogate code then none
      else (joinPieces rest).map (Char.ofNat code :: ·)

/-- A string after its opening quote: none inside when an escape stands for no character. -/
def readString (cs : List Char) : Option (Option String × List Char) := do
  let (pieces, rest) ← readPieces cs
  some ((joinPieces pieces).map String.ofList, rest)

def readDigits (cs : List Char) : Option (List Char × List Char) :=
  let digits := cs.takeWhile Char.isDigit
  if digits.isEmpty then none else some (digits, cs.dropWhile Char.isDigit)

def readFraction : List Char → Option (List Char × List Char)
  | '.' :: rest => do
      let (digits, rest) ← readDigits rest
      some ('.' :: digits, rest)
  | rest => some ([], rest)

def readExponent : List Char → Option (List Char × List Char)
  | c :: rest =>
      if c == 'e' || c == 'E' then do
        let sign := rest.takeWhile (fun s => s == '+' || s == '-')
        if 1 < sign.length then none
        let (digits, rest) ← readDigits (rest.drop sign.length)
        some (c :: sign ++ digits, rest)
      else some ([], c :: rest)
  | [] => some ([], [])

def readNumber (cs : List Char) : Option (String × List Char) := do
  let sign := if cs.head? == some '-' then ['-'] else []
  let (whole, rest) ← readDigits (cs.drop sign.length)
  if 1 < whole.length && whole.head? == some '0' then none
  let (fraction, rest) ← readFraction rest
  let (exponent, rest) ← readExponent rest
  some (String.ofList (sign ++ whole ++ fraction ++ exponent), rest)

def readWord (word : String) (value : Json) (cs : List Char) : Option (Json × List Char) :=
  if word.toList.isPrefixOf cs then some (value, cs.drop word.length) else none

mutual

/-- A value with the text behind it. Every step of the recursion passes a character or ends
a list, so twice the length of the text is budget enough. -/
def readValue : Nat → List Char → Option (Json × List Char)
  | 0, _ => none
  | budget + 1, cs =>
      match skipBlanks cs with
      | [] => none
      | '"' :: rest => (readString rest).map fun (text, rest) => (text.elim .badStr .str, rest)
      | '[' :: rest =>
          match skipBlanks rest with
          | ']' :: rest => some (.arr [], rest)
          | rest => (readItems budget rest).map fun (items, rest) => (.arr items, rest)
      | '\x7b' :: rest =>
          match skipBlanks rest with
          | '\x7d' :: rest => some (.obj [], rest)
          | rest => (readMembers budget rest).map fun (members, rest) => (.obj members, rest)
      | 't' :: rest => readWord "true" (.bool true) ('t' :: rest)
      | 'f' :: rest => readWord "false" (.bool false) ('f' :: rest)
      | 'n' :: rest => readWord "null" .null ('n' :: rest)
      | rest => (readNumber rest).map fun (text, rest) => (.num text, rest)

def readItems : Nat → List Char → Option (List Json × List Char)
  | 0, _ => none
  | budget + 1, cs => do
      let (item, rest) ← readValue budget cs
      match skipBlanks rest with
      | ']' :: rest => some ([item], rest)
      | ',' :: rest =>
          let (items, rest) ← readItems budget rest
          some (item :: items, rest)
      | _ => none

def readMembers : Nat → List Char → Option (List (String × Json) × List Char)
  | 0, _ => none
  | budget + 1, cs => do
      let '"' :: rest := skipBlanks cs | none
      let (some key, rest) ← readString rest | none
      let ':' :: rest := skipBlanks rest | none
      let (value, rest) ← readValue budget rest
      match skipBlanks rest with
      | '\x7d' :: rest => some ([(key, value)], rest)
      | ',' :: rest =>
          let (members, rest) ← readMembers budget rest
          some ((key, value) :: members, rest)
      | _ => none

end

def parse (text : String) : Option Json := do
  let cs := text.toList
  let (value, rest) ← readValue (2 * cs.length + 2) cs
  if (skipBlanks rest).isEmpty then some value else none

end ActorScript.Json
