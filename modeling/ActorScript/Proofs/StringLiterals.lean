import ActorScript.Proofs.Spacing

/-! # Every text can be written as a literal

Between double quotes a backslash stands in front of every double quote and every backslash. The
end of the literal and what it means are found by two walks over its characters, which pair each
backslash with the same character.
-/

namespace ActorScript

open Text

namespace Scan

/-- A text as it is written between double quotes. -/
def escape : List Char → List Char
  | [] => []
  | c :: cs => if c = '"' ∨ c = '\\' then '\\' :: c :: escape cs else c :: escape cs

/-- The closing quote is the one behind the text. -/
theorem stringLength_escape (cs rest : List Char) :
    stringLength (escape cs ++ '"' :: rest) = ((escape cs).length + 1, true) := by
  induction cs with
  | nil => rfl
  | cons c cs ih =>
    rw [escape]
    split
    next hc =>
      rcases hc with rfl | rfl <;> simp [stringLength, ih]
    next hc =>
      obtain ⟨hquote, hescape⟩ := not_or.1 hc
      rw [List.cons_append, stringLength_cons hquote hescape, ih, List.length_cons]

theorem unescape_cons {c : Char} (h : c ≠ '\\') (cs : List Char) :
    unescape (c :: cs) = c :: unescape cs := by
  rw [unescape] <;> simp [h]

/-- What is written means the text. -/
theorem unescape_escape (cs : List Char) : unescape (escape cs) = cs := by
  induction cs with
  | nil => rfl
  | cons c cs ih =>
    rw [escape]
    split
    next hc =>
      rcases hc with rfl | rfl <;> simp [unescape, ih]
    next hc => rw [unescape_cons (not_or.1 hc).2, ih]

theorem readString_escape (cs : List Char) :
    readString '"' (escape cs ++ ['"']) =
      some ⟨.token (.string (String.ofList cs)), (escape cs ++ ['"']).length⟩ := by
  simp [readString, stringLength_escape, unescape_escape]

end Scan

open Scan

/-- A text between double quotes, with backslashes in front of double quotes and backslashes, is one
token that means the text. -/
theorem scan_quoted (text : String) :
    let literal := String.ofList ('"' :: (escape text.toList ++ ['"']))
    scan literal = .ok [⟨.string text, 0, literal.utf8ByteSize⟩] := by
  intro literal
  have hreading := reading_of_quoted (.inl (readString_escape text.toList))
  have htoken : (reading '"' (escape text.toList ++ ['"'])).lexeme = .token (.string text) := by
    rw [hreading, String.ofList_toList]
  rw [scan, String.toList_ofList, scanFrom_token htoken, hreading, List.take_length,
    List.drop_length, byteCount_eq, Nat.zero_add]
  rfl

/-- Newlines and letters that would be escapes stand for themselves. -/
example : scan "\"\\\\n\n\\\"\"" = .ok [⟨.string "\\n\n\"", 0, 8⟩] := by rfl

end ActorScript
