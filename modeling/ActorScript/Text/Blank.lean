/-! # White space

The characters with the White_Space property, and the two cuts made at them:
trimming both ends and splitting into words.
-/

namespace ActorScript.Text

/-- Code point ranges of the White_Space property. -/
def blankRanges : List (Nat × Nat) :=
  [(0x9, 0xD), (0x20, 0x20), (0x85, 0x85), (0xA0, 0xA0), (0x1680, 0x1680), (0x2000, 0x200A),
    (0x2028, 0x2029), (0x202F, 0x202F), (0x205F, 0x205F), (0x3000, 0x3000)]

def isBlank (c : Char) : Bool :=
  blankRanges.any fun (lo, hi) => lo ≤ c.toNat && c.toNat ≤ hi

/-- Characters between the blanks at both ends. -/
def trimChars (cs : List Char) : List Char :=
  ((cs.dropWhile isBlank).reverse.dropWhile isBlank).reverse

def trim (text : String) : String :=
  String.ofList (trimChars text.toList)

/-- Maximal runs of characters that `isGap` refuses. -/
def runs (isGap : Char → Bool) (cs : List Char) : List (List Char) :=
  (cs.splitOnP isGap).filter (!·.isEmpty)

end ActorScript.Text
