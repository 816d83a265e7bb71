import ActorScript.Source.Span
import ActorScript.Text.Fold

/-! # Lines of a source text

Lines and columns of byte offsets. Lines and columns count from one, and columns
count characters, so a mark under a name lines up also after a non-ASCII literal.
-/

namespace ActorScript

structure Location where
  line : Nat
  col : Nat
  deriving DecidableEq, Repr

/-- What remains after `n` bytes, when these are whole characters of the text. -/
def dropBytes? : Nat → List Char → Option (List Char)
  | 0, cs => some cs
  | _ + 1, [] => none
  | n + 1, c :: cs =>
      if Text.charBytes c ≤ n + 1 then dropBytes? (n + 1 - Text.charBytes c) cs else none

/-- The first `n` bytes, when these are whole characters of the text. -/
def takeBytes? : Nat → List Char → Option (List Char)
  | 0, _ => some []
  | _ + 1, [] => none
  | n + 1, c :: cs =>
      if Text.charBytes c ≤ n + 1 then
        (takeBytes? (n + 1 - Text.charBytes c) cs).map (c :: ·)
      else none

/-- Characters from byte `start` up to byte `stop`, when both fall between characters. -/
def slice? (cs : List Char) (start stop : Nat) : Option (List Char) :=
  if start ≤ stop then (dropBytes? start cs).bind (takeBytes? (stop - start)) else none

/-- Offset after each newline of a text that itself begins at `offset`. -/
def lineStartsAfter : Nat → List Char → List Nat
  | _, [] => []
  | offset, c :: cs =>
      let next := offset + Text.charBytes c
      if c == '\n' then next :: lineStartsAfter next cs else lineStartsAfter next cs

/-- A text with the offsets at which its lines start. -/
structure Lines where
  chars : List Char
  size : Nat
  starts : List Nat
  deriving Repr

namespace Lines

def ofText (text : String) : Lines :=
  let chars := text.toList
  { chars, size := Text.byteCount chars, starts := 0 :: lineStartsAfter 0 chars }

/-- Index from zero of the line that an offset falls on. -/
def indexOf (lines : Lines) (offset : Nat) : Nat :=
  (lines.starts.filter (· ≤ offset)).length - 1

/-- Offset at which a line, counted from zero, ends before its newline. -/
def endOf (lines : Lines) (index : Nat) : Nat :=
  match lines.starts[index + 1]? with
  | some next => next - 1
  | none => lines.size

/-- Line and column of an offset; an offset past the end is taken for the end. A column
inside a character counts bytes. -/
def location (lines : Lines) (offset : Nat) : Location :=
  let offset := min offset lines.size
  let index := lines.indexOf offset
  let start := lines.starts.getD index 0
  let col := match slice? lines.chars start offset with
    | some before => before.length
    | none => offset - start
  ⟨index + 1, col + 1⟩

def withoutReturns (cs : List Char) : List Char :=
  (cs.reverse.dropWhile (· == '\r')).reverse

/-- Text of a line without its ending; empty outside the text. -/
def line (lines : Lines) (number : Nat) : String :=
  match number with
  | 0 => ""
  | index + 1 =>
      match lines.starts[index]? with
      | none => ""
      | some start =>
          String.ofList (withoutReturns ((slice? lines.chars start (lines.endOf index)).getD []))

/-- Characters of a span that fall on its first line, at least one. -/
def width (lines : Lines) (span : Span) : Nat :=
  let index := lines.indexOf (min span.start lines.size)
  let stop := max (min span.stop (lines.endOf index)) span.start
  max 1 ((slice? lines.chars span.start stop).elim 0 List.length)

end Lines

end ActorScript
