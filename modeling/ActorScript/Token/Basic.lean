import ActorScript.Decimal.Layout

/-! # Tokens

Words, literals and punctuation of actor code.
-/

namespace ActorScript

inductive Keyword where
  | ifWord | elseWord | whileWord | doWord | forWord | breakWord | continueWord | returnWord
  | trueWord | falseWord | nullWord | selfWord | sizeOf | alignOf | classWord
  deriving DecidableEq, Repr

namespace Keyword

def text : Keyword → String
  | ifWord => "if"
  | elseWord => "else"
  | whileWord => "while"
  | doWord => "do"
  | forWord => "for"
  | breakWord => "break"
  | continueWord => "continue"
  | returnWord => "return"
  | trueWord => "true"
  | falseWord => "false"
  | nullWord => "null"
  | selfWord => "self"
  | sizeOf => "sizeof"
  | alignOf => "alignof"
  | classWord => "class"

def all : List Keyword :=
  [ifWord, elseWord, whileWord, doWord, forWord, breakWord, continueWord, returnWord,
    trueWord, falseWord, nullWord, selfWord, sizeOf, alignOf, classWord]

end Keyword

inductive Symbol where
  | lParen | rParen | lBracket | rBracket | lBrace | rBrace
  | comma | semi | dot | question | colon
  | plus | minus | star | slash | percent | starStar | plusPlus | minusMinus
  | less | greater | lessEq | greaterEq | eqEq | notEq | approxEq | ltGtEq
  | shl | shr | ushr | amp | pipe | caret | andAnd | orOr | bang | tilde
  | assign | plusAssign | minusAssign | starAssign | slashAssign | percentAssign
  | shlAssign | shrAssign | ushrAssign | ampAssign | pipeAssign | caretAssign
  deriving DecidableEq, Repr

namespace Symbol

def text : Symbol → String
  | lParen => "("
  | rParen => ")"
  | lBracket => "["
  | rBracket => "]"
  | lBrace => "\x7b"
  | rBrace => "\x7d"
  | comma => ","
  | semi => ";"
  | dot => "."
  | question => "?"
  | colon => ":"
  | plus => "+"
  | minus => "-"
  | star => "*"
  | slash => "/"
  | percent => "%"
  | starStar => "**"
  | plusPlus => "++"
  | minusMinus => "--"
  | less => "<"
  | greater => ">"
  | lessEq => "<="
  | greaterEq => ">="
  | eqEq => "=="
  | notEq => "!="
  | approxEq => "~=="
  | ltGtEq => "<>="
  | shl => "<<"
  | shr => ">>"
  | ushr => ">>>"
  | amp => "&"
  | pipe => "|"
  | caret => "^"
  | andAnd => "&&"
  | orOr => "||"
  | bang => "!"
  | tilde => "~"
  | assign => "="
  | plusAssign => "+="
  | minusAssign => "-="
  | starAssign => "*="
  | slashAssign => "/="
  | percentAssign => "%="
  | shlAssign => "<<="
  | shrAssign => ">>="
  | ushrAssign => ">>>="
  | ampAssign => "&="
  | pipeAssign => "|="
  | caretAssign => "^="

def all : List Symbol :=
  [lParen, rParen, lBracket, rBracket, lBrace, rBrace, comma, semi, dot, question, colon,
    plus, minus, star, slash, percent, starStar, plusPlus, minusMinus,
    less, greater, lessEq, greaterEq, eqEq, notEq, approxEq, ltGtEq,
    shl, shr, ushr, amp, pipe, caret, andAnd, orOr, bang, tilde,
    assign, plusAssign, minusAssign, starAssign, slashAssign, percentAssign,
    shlAssign, shrAssign, ushrAssign, ampAssign, pipeAssign, caretAssign]

end Symbol

inductive Token where
  | keyword (word : Keyword)
  | symbol (mark : Symbol)
  | float (value : Float)
  | int (value : UInt64)
  | string (text : String)
  | name (text : String)
  | ident (text : String)

/-- How a token reads in a message. -/
def Token.describe : Token → String
  | .keyword word => "'" ++ word.text ++ "'"
  | .symbol mark => "'" ++ mark.text ++ "'"
  | .float value => "number " ++ Decimal.Layout.plain.format value
  | .int value => "number " ++ toString value.toNat
  | .string text => "string \"" ++ text ++ "\""
  | .name text => "name '" ++ text ++ "'"
  | .ident text => "identifier '" ++ text ++ "'"

end ActorScript
