import ActorScript.Text.Fold

/-! # Edit distance

The least number of insertions, deletions and substitutions of characters that
turns one text into another, computed a row at a time, and the nearest of a list
of candidates.
-/

namespace ActorScript.Text

/-- Cells after the first of the row below `above`, where `left` is the cell just written. -/
def rowAfter (c : Char) : List Char → List Nat → Nat → List Nat
  | d :: rest, corner :: top :: above, left =>
      let cell := min (min (top + 1) (left + 1)) (corner + if c == d then 0 else 1)
      cell :: rowAfter c rest (top :: above) cell
  | _, _, _ => []

/-- Row of distances from a text longer by `c` to every beginning of `target`. -/
def nextRow (target : List Char) (above : List Nat) (c : Char) : List Nat :=
  let first := above.headD 0 + 1
  first :: rowAfter c target above first

/-- Least number of single-character edits between two texts. -/
def distance (a b : List Char) : Nat :=
  (a.foldl (nextRow b) (List.range (b.length + 1))).getLastD 0

/-- Edits beyond which a name is not taken for a misspelling. -/
def maxDistance : Nat := 3

/-- Better of a candidate and the best before it; a later one has to be strictly nearer. -/
def nearer (name : List Char) (best : Option (String × Nat)) (candidate : String) :
    Option (String × Nat) :=
  let d := distance name (fold candidate).toList
  if maxDistance < d then best
  else
    match best with
    | none => some (candidate, d)
    | some (_, least) => if d < least then some (candidate, d) else best

/-- The candidate nearest to a name, without regard to letter case, if one is near enough. -/
def nearest? (name : String) (candidates : List String) : Option String :=
  (candidates.foldl (nearer (fold name).toList) none).map (·.1)

end ActorScript.Text
