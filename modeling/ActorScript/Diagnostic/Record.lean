import ActorScript.Diagnostic.Basic
import ActorScript.Diagnostic.Catalogue
import ActorScript.Json.Basic
import ActorScript.Source.Lines

/-! # Diagnostics as JSON

One object for each diagnostic. Lines and columns are given when the source text
is at hand.
-/

namespace ActorScript.Diagnostic

def spanMembers (source : Option String) (label : Label) : List (String × Json) :=
  let position := match source with
    | none => []
    | some text =>
        let lines := Lines.ofText text
        let start := lines.location label.span.start
        let stop := lines.location label.span.stop
        [("line", .ofNat start.line), ("col", .ofNat start.col), ("end_line", .ofNat stop.line),
          ("end_col", .ofNat stop.col)]
  [("start", .ofNat label.span.start), ("end", .ofNat label.span.stop)] ++
    (if label.remark.isEmpty then [] else [("label", .str label.remark)]) ++ position

def summary? (d : Diagnostic) : Option String :=
  (d.code.bind Code.find?).map Code.summary

def toJson (source : Option String) (d : Diagnostic) : Json :=
  let given (key : String) (text : Option String) := text.toList.map fun t => (key, Json.str t)
  .sorted <|
    [("severity", .str d.severity.text), ("message", .str d.message),
      ("span", .ofOption (.sorted <| spanMembers source ·) d.label),
      ("notes", .arr (d.notes.map .str))] ++
    given "code" d.code ++ given "summary" d.summary? ++ given "suggestion" d.suggestion

end ActorScript.Diagnostic
