import ActorScript.Diagnostic.Basic
import ActorScript.Source.Lines
import ActorScript.Text.Blank

/-! # Diagnostics as text

A heading, the source line with marks under the span, and notes below. In color,
every part is wrapped in the terminal sequence of its style.
-/

namespace ActorScript

inductive Style where
  | strong | fatal | caution | frame | faint
  deriving DecidableEq, Repr

/-- Parameters of the terminal sequence that starts a style. -/
def Style.parameters : Style → String
  | .strong => "1"
  | .fatal => "1;31"
  | .caution => "1;33"
  | .frame => "36"
  | .faint => "2"

def Severity.style : Severity → Style
  | .error => .fatal
  | .warning | .optError => .caution
  | .debug | .debugLog => .faint

def paint (color : Bool) (style : Style) (text : String) : String :=
  if color then "\x1b[" ++ style.parameters ++ "m" ++ text ++ "\x1b[0m" else text

structure Excerpt where
  location : Location
  /-- The line before, unless it is blank. -/
  before : Option String
  text : String
  width : Nat
  /-- Whether the span goes on on later lines. -/
  continues : Bool
  deriving Repr

namespace Excerpt

def ofSpan (lines : Lines) (span : Span) : Excerpt :=
  let location := lines.location span.start
  let last := lines.location (max span.stop (span.start + 1) - 1)
  let previous := lines.line (location.line - 1)
  { location
    before :=
      if 1 < location.line && !(Text.trimChars previous.toList).isEmpty then some previous else none
    text := lines.line location.line
    width := lines.width span
    continues := location.line < last.line }

/-- Blanks up to the column of the label; tabs are kept so that the marks line up. -/
def indent (e : Excerpt) : String :=
  let before := e.text.toList.take (e.location.col - 1)
  String.ofList (before.map fun c => if c == '\t' then c else ' ')

def gutter (e : Excerpt) : Nat :=
  (toString e.location.line).length

def blanks (n : Nat) : String :=
  String.ofList (List.replicate n ' ')

def number (e : Excerpt) (line : Nat) : String :=
  Text.padLeft e.gutter ' ' (toString line)

def marks (e : Excerpt) : String :=
  String.ofList (List.replicate e.width '^') ++ if e.continues then "..." else ""

def render (color : Bool) (accent : Style) (remark : String) (e : Excerpt) : String :=
  let bar := paint color .frame "|"
  let blank := blanks e.gutter
  let arrow := blank ++ " " ++ paint color .frame "-->" ++ " " ++ toString e.location.line ++ ":" ++
    toString e.location.col ++ "\n"
  let before := match e.before with
    | some line =>
        paint color .faint (e.number (e.location.line - 1)) ++ " " ++ bar ++ " " ++
          paint color .faint line ++ "\n"
    | none => ""
  let here := paint color .frame (e.number e.location.line) ++ " " ++ bar ++ " " ++ e.text ++ "\n"
  let pointer := blank ++ " " ++ bar ++ " " ++ e.indent ++ paint color accent e.marks ++
    (if remark.isEmpty then "" else " " ++ paint color accent remark) ++ "\n"
  arrow ++ before ++ here ++ pointer

end Excerpt

namespace Diagnostic

def heading (d : Diagnostic) : String :=
  match d.code with
  | some code => d.severity.text ++ "[" ++ code ++ "]"
  | none => d.severity.text

/-- Text of a diagnostic, with an excerpt when there is a source and a place in it. -/
def render (color : Bool) (source : Option String) (d : Diagnostic) : String :=
  let accent := d.severity.style
  let head := paint color accent d.heading ++ ": " ++ paint color .strong d.message ++ "\n"
  let (gutter, body) := match d.label, source with
    | some label, some source =>
        let e := Excerpt.ofSpan (Lines.ofText source) label.span
        (e.gutter, e.render color accent label.remark)
    | _, _ => (1, "")
  let margin := Excerpt.blanks gutter ++ " " ++ paint color .frame "="
  let notes := d.notes.map fun note => margin ++ " note: " ++ note ++ "\n"
  let help := d.suggestion.elim "" fun help => margin ++ " help: " ++ help ++ "\n"
  head ++ body ++ String.join notes ++ help

end Diagnostic

end ActorScript
