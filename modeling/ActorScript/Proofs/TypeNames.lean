import ActorScript.Token.Scan
import ActorScript.World.TypeName

/-! # Types read back from their names

A name can be written in several ways: with blanks, in any letter case, by an alias. Which type was
read says enough to write a name of it that is read as the same type.
-/

namespace ActorScript

variable {p : Char → Bool} {text name : String} {cs : List Char} {ty : Ty}

namespace Text

variable {cs : List Char}

/-! ## Blanks and digits -/

theorem dropWhile_eq_self (h : ∀ c ∈ cs.head?, p c = false) : cs.dropWhile p = cs := by
  cases cs with
  | nil => rfl
  | cons c cs => simp [h c rfl]

theorem span_append {d : Char} (h : ∀ c ∈ cs, p c = true) (hd : p d = false) (rest : List Char) :
    (cs ++ d :: rest).takeWhile p = cs ∧
      (cs ++ d :: rest).dropWhile p = d :: rest := by
  rw [List.takeWhile_append_of_pos h, List.dropWhile_append_of_pos h]
  simp [hd]

/-- Nothing is cut off a text without blanks at its ends. -/
theorem trimChars_eq_self (hhead : ∀ c ∈ cs.head?, isBlank c = false)
    (hlast : ∀ c ∈ cs.getLast?, isBlank c = false) : trimChars cs = cs := by
  rw [trimChars, dropWhile_eq_self hhead, dropWhile_eq_self (by simpa using hlast),
    List.reverse_reverse]

theorem head_append {rest : List Char} (h : ∀ c ∈ cs.head?, isBlank c = false)
    (hrest : ∀ c ∈ rest.head?, isBlank c = false) : ∀ c ∈ (cs ++ rest).head?, isBlank c = false := by
  cases cs with
  | nil => exact hrest
  | cons c cs => exact h

theorem trimChars_concat {d : Char} (hhead : ∀ c ∈ cs.head?, isBlank c = false)
    (hd : isBlank d = false) : trimChars (cs ++ [d]) = cs ++ [d] :=
  trimChars_eq_self (head_append hhead (by simpa)) (by simpa)

theorem trimChars_of_not_blank (h : ∀ c ∈ cs, isBlank c = false) : trimChars cs = cs :=
  trimChars_eq_self (fun c hc => h c (List.mem_of_mem_head? hc))
    fun c hc => h c (List.mem_of_mem_getLast? hc)

theorem decimalValue_toDigits (n : Nat) : decimalValue (Nat.toDigits 10 n) = n := by
  rw [decimalValue, ofDigits, List.foldl_map]
  simpa [Nat.ofDigitChars, Nat.mul_comm] using
    Nat.ofDigitChars_toDigits (b := 10) (n := n) (by decide) (by decide)

end Text

/-! ## Characters of names -/

namespace Scan

variable {c : Char}

theorem isWordChar_of_isDigit (h : c.isDigit = true) : isWordChar c = true := by
  simp [isWordChar, Char.isAlphanum, h]

theorem not_isBlank_of_isWordChar (h : isWordChar c = true) : Text.isBlank c = false := by
  have hrange : 48 ≤ c.toNat ∧ c.toNat ≤ 122 := by
    unfold isWordChar at h
    delta Char.isAlphanum Char.isAlpha Char.isUpper Char.isLower Char.isDigit at h
    simp only [Bool.or_eq_true, decide_eq_true_eq, Bool.and_eq_true, UInt32.le_iff_toNat_le,
      beq_iff_eq] at h
    rcases h with ((h | h) | h) | rfl
    · exact ⟨Nat.le_trans (by decide) h.1, Nat.le_trans h.2 (by decide)⟩
    · exact ⟨Nat.le_trans (by decide) h.1, Nat.le_trans h.2 (by decide)⟩
    · exact ⟨Nat.le_trans (by decide) h.1, Nat.le_trans h.2 (by decide)⟩
    · decide
  simp only [Text.isBlank, Text.blankRanges, List.any_cons, List.any_nil, Bool.or_false,
    Bool.or_eq_false_iff, Bool.and_eq_false_iff, decide_eq_false_iff_not]
  omega

def IsWord (text : String) : Prop :=
  ∀ c ∈ text.toList, isWordChar c = true

instance (text : String) : Decidable (IsWord text) :=
  List.decidableBAll (fun c => isWordChar c = true) text.toList

theorem IsWord.not_mem (h : IsWord text) (hc : isWordChar c = false) : c ∉ text.toList :=
  fun hin => by simp [h c hin] at hc

theorem IsWord.trimChars (h : IsWord text) : Text.trimChars text.toList = text.toList :=
  Text.trimChars_of_not_blank fun c hc => not_isBlank_of_isWordChar (h c hc)

theorem isWord_toDigits (n : Nat) : ∀ c ∈ Nat.toDigits 10 n, isWordChar c = true := fun c hc =>
  isWordChar_of_isDigit (Nat.isDigit_of_mem_toDigits (by decide) (by decide) hc)

end Scan

open Scan

theorem countValue?_toDigits {n : Nat} (h : n < UInt32.size) :
    countValue? (Nat.toDigits 10 n) = some n := by
  have hdigits : ∀ c ∈ Nat.toDigits 10 n, c.isDigit = true := fun c hc =>
    Nat.isDigit_of_mem_toDigits (by decide) (by decide) hc
  have hplus : (Nat.toDigits 10 n).head? ≠ some '+' := fun hhead => by
    cases hdigits '+' (List.mem_of_mem_head? hhead)
  simpa [countValue?, hplus, Text.decimalValue_toDigits, h, Nat.toDigits_ne_nil] using hdigits

namespace World

variable {w : World}

/-- A type that has a name in a world. -/
inductive Named (w : World) : Ty → Prop
  | plain {text : String} {ty : Ty} : (text, ty) ∈ plainTypes → Named w ty
  | object {c : ClassId} : w.findClass (w.className c) = some c →
      plainTypes.lookup (Text.fold (w.className c)) = none → Named w (.object c)
  | classPtr {c : ClassId} : w.findClass (w.className c) = some c → Named w (.classPtr c)
  | array {elem : Ty} {count : Nat} :
      Named w elem → count < UInt32.size → Named w (.array elem count)

end World

/-- A structure is among what the type is made of. -/
def Ty.hasStruct : Ty → Bool
  | .struct _ => true
  | .array elem _ => elem.hasStruct
  | _ => false

namespace World

variable {w : World}

/-! ## Reading -/

/-- The class that is found under a name is found under its own name, which is a spelling of it. -/
theorem findClass_className {c : ClassId} (h : w.findClass name = some c) :
    w.findClass (w.className c) = some c ∧ Text.fold (w.className c) = Text.fold name := by
  obtain ⟨hc, hsame, hfirst⟩ := Array.findIdx?_eq_some_iff_getElem.1 h
  have hname : w.className c = w.classes[c].name := by simp [className, class?, hc]
  have hfold : Text.fold (w.className c) = Text.fold name := by
    rw [hname]
    simpa [Text.sameName] using hsame
  refine ⟨?_, hfold⟩
  unfold findClass at h ⊢
  simpa only [Text.sameName, hfold] using h

theorem parseScalar_named (h : w.parseScalar cs = some ty) (hstruct : ty.hasStruct = false) :
    w.Named ty := by
  unfold parseScalar at h
  split at h
  · obtain ⟨c, hc, rfl⟩ := Option.map_eq_some_iff.1 h
    exact .classPtr (findClass_className hc).1
  · split at h
    · cases h
      cases hstruct
    · dsimp only at h
      split at h
      next ty' hlookup =>
        cases h
        obtain ⟨before, behind, heq, -⟩ := List.lookup_eq_some_iff.1 hlookup
        have hmem : (Text.fold (String.ofList cs), ty) ∈ plainTypes := by simp [heq]
        exact .plain hmem
      next hlookup =>
        obtain ⟨c, hc, rfl⟩ := Option.map_eq_some_iff.1 h
        obtain ⟨hclass, hfold⟩ := findClass_className hc
        exact .object hclass (hfold ▸ hlookup)

theorem parseBracketed_named {brackets : Nat} (h : w.parseBracketed brackets cs = some ty)
    (hstruct : ty.hasStruct = false) : w.Named ty := by
  induction brackets generalizing cs ty with
  | zero => exact parseScalar_named h hstruct
  | succ brackets ih =>
    simp only [parseBracketed] at h
    split at h
    next size hsize =>
      simp only [Option.bind_eq_bind, Option.bind_eq_some_iff] at h
      obtain ⟨count, hcount, elem, helem, harray⟩ := h
      cases harray
      refine .array (ih helem hstruct) ?_
      unfold countValue? at hcount
      grind
    next => cases h

/-! ## Reading back -/

/-- What a text of letters, digits and underscores is read as. -/
theorem parseType_word (h : IsWord text) :
    w.parseType text =
      (plainTypes.lookup (Text.fold text)).or ((w.findClass text).map .object) := by
  have hbetween {first last : String} {c : Char} (hin : c ∈ first.toList)
      (hc : isWordChar c = false) : between? first last text.toList = none := by
    have hpre : first.toList.isPrefixOf text.toList = false := by
      rw [Bool.eq_false_iff, Ne, List.isPrefixOf_iff_prefix]
      exact fun hpre => h.not_mem hc (hpre.subset hin)
    simp [between?, hpre]
  rw [parseType, List.count_eq_zero.2 (h.not_mem (by decide)), parseBracketed, h.trimChars,
    parseScalar, hbetween (c := '<') (by decide) (by decide),
    hbetween (c := ' ') (by decide) (by decide), String.ofList_toList]
  dsimp only
  cases plainTypes.lookup (Text.fold text) <;> rfl

theorem plain_spelled (h : (text, ty) ∈ plainTypes) :
    IsWord (w.describe ty) ∧ plainTypes.lookup (Text.fold (w.describe ty)) = some ty := by
  -- The world is not looked at.
  have hworld : w.describe ty = ({} : World).describe ty := by
    revert h
    cases ty with
    | floating kind => cases kind <;> simp [describe]
    | _ => simp [plainTypes, describe]
  have hplain : ∀ p ∈ plainTypes, IsWord (({} : World).describe p.2) ∧
      plainTypes.lookup (Text.fold (({} : World).describe p.2)) = some p.2 := by decide
  exact hworld ▸ hplain _ h

theorem parseType_class (h : IsWord name) :
    w.parseType ("class<" ++ name ++ ">") = (w.findClass name).map .classPtr := by
  have htext : ("class<" ++ name ++ ">").toList = "class<".toList ++ name.toList ++ ['>'] := by simp
  have hbracket : '[' ∉ ("class<" ++ name ++ ">").toList := by
    simpa using h.not_mem (by decide)
  have hinner : between? "class<" ">" ("class<".toList ++ name.toList ++ ['>']) =
      some name.toList := by
    have hlength : "class<".length = "class<".toList.length := rfl
    have hone : ">".length = 1 := rfl
    rw [between?, List.append_assoc, hlength, List.drop_left]
    simp [hone]
  have htrim : Text.trimChars ("class<".toList ++ name.toList ++ ['>']) = _ :=
    Text.trimChars_concat (by simp; decide) (by decide)
  rw [parseType, List.count_eq_zero.2 hbracket, parseBracketed, htext, htrim, parseScalar, hinner]
  simp only [Text.trim, String.ofList_toList, h.trimChars]

/-- An array is read from what is in front of the last bracket and the number behind it. -/
theorem parseType_array {count : Nat} (hhead : ∀ c ∈ text.toList.head?, Text.isBlank c = false)
    (hcount : count < UInt32.size) :
    w.parseType (text ++ "[" ++ toString count ++ "]") =
      (w.parseType text).map (.array · count) := by
  have htext : (text ++ "[" ++ toString count ++ "]").toList =
      text.toList ++ '[' :: Nat.toDigits 10 count ++ [']'] := by
    simp [Nat.toString_eq_repr, Nat.toList_repr]
  have hdigits := isWord_toDigits count
  have hvalue := countValue?_toDigits hcount
  generalize Nat.toDigits 10 count = digits at htext hdigits hvalue
  have hnot : '[' ∉ digits := fun hin => by cases hdigits _ hin
  have hbrackets : (text.toList ++ '[' :: digits ++ [']']).count '[' = text.toList.count '[' + 1 := by
    simp [List.count_eq_zero.2 hnot]
  have hstarts : ∀ c ∈ (text.toList ++ '[' :: digits).head?, Text.isBlank c = false :=
    Text.head_append hhead (by simp; decide)
  have hreversed : (text.toList ++ '[' :: digits ++ [']']).reverse =
      (']' :: digits.reverse) ++ '[' :: text.toList.reverse := by simp
  have hsize : ∀ c ∈ ']' :: digits.reverse, (c != '[') = true := by
    simp only [List.forall_mem_cons, List.mem_reverse, bne_iff_ne]
    exact ⟨by decide, fun c hc heq => hnot (heq ▸ hc)⟩
  obtain ⟨htake, hdrop⟩ := Text.span_append (d := '[') hsize (by decide) text.toList.reverse
  have htrim : Text.trimChars digits = digits :=
    Text.trimChars_of_not_blank fun c hc => not_isBlank_of_isWordChar (hdigits c hc)
  rw [parseType, htext, hbrackets, parseBracketed, Text.trimChars_concat hstarts (by decide),
    hreversed]
  simp only [htake, hdrop, List.drop_succ_cons, List.drop_zero, List.reverse_reverse, htrim, hvalue]
  rw [parseType]
  cases w.parseBracketed (text.toList.count '[') text.toList <;> rfl

theorem Named.reads_back (hw : ∀ cls ∈ w.classes, IsWord cls.name) (h : w.Named ty) :
    w.parseType (w.describe ty) = some ty := by
  have hclass (c : ClassId) : IsWord (w.className c) := by
    unfold className class?
    cases h : w.classes[c]? with
    | none => simp [IsWord]
    | some cls => exact hw cls (Array.mem_of_getElem? h)
  suffices hstrong : (∀ c ∈ (w.describe ty).toList.head?, Text.isBlank c = false) ∧
      w.parseType (w.describe ty) = some ty from hstrong.2
  have hstarts {text : String} (h : IsWord text) : ∀ c ∈ text.toList.head?, Text.isBlank c = false :=
    fun c hc => not_isBlank_of_isWordChar (h c (List.mem_of_mem_head? hc))
  induction h with
  | plain h =>
    obtain ⟨hword, hlookup⟩ := plain_spelled (w := w) h
    exact ⟨hstarts hword, by rw [parseType_word hword, hlookup, Option.some_or]⟩
  | @object c hfound hplain =>
    refine ⟨hstarts (hclass c), ?_⟩
    rw [describe, parseType_word (hclass c), hplain, hfound]
    rfl
  | @classPtr c hfound =>
    refine ⟨by simp [describe]; decide, ?_⟩
    rw [describe, parseType_class (hclass c), hfound]
    rfl
  | @array elem count helem hcount ih =>
    refine ⟨?_, ?_⟩
    · rw [describe, String.append_assoc, String.append_assoc, String.toList_append]
      exact Text.head_append ih.1 (by simp; decide)
    · rw [describe, parseType_array ih.1 hcount, ih.2]
      rfl

/-- A type that is read from some text, and has no structure in it, is read from its own name too,
if the names of classes are made of letters, digits and underscores. -/
theorem parseType_describe {w : World} (hw : ∀ cls ∈ w.classes, IsWord cls.name) {text : String}
    {ty : Ty} (h : w.parseType text = some ty) (hstruct : ty.hasStruct = false) :
    w.parseType (w.describe ty) = some ty :=
  (parseBracketed_named h hstruct).reads_back hw

/-- Blanks, another letter case and a plus sign are not written again. -/
theorem parseType_describe_nested :
    let w : World := { classes := #[{ name := "Actor" }] }
    w.describe (.array (.array (.classPtr 0) 3) 2) = "class<Actor>[3][2]" ∧
      w.parseType "class<Actor>[3][2]" = some (.array (.array (.classPtr 0) 3) 2) := by
  have hread : ({ classes := #[{ name := "Actor" }] } : World).parseType " class< ACTOR >[ +3 ] [2]" =
      some (.array (.array (.classPtr 0) 3) 2) := by decide +kernel
  exact ⟨rfl, parseType_describe (by decide) hread rfl⟩

end World

end ActorScript
