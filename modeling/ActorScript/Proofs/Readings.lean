import ActorScript.Proofs.Scanning

/-! # What a reading depends on

A lexeme lies in the text, and how it is read depends on what follows only up to the next blank, but
for the end of a block comment, which may be anywhere behind its beginning.
-/

namespace ActorScript

variable {cs : List Char} {e : Nat × Int} {n : Nat} {token : Token}

/-! ## Words of the language -/

theorem Symbol.not_isGapChar (mark : Symbol) :
    ∀ x ∈ mark.text.toList, Scan.isGapChar x = false := by
  have hall : mark.text.toList.all (!Scan.isGapChar ·) = true := by cases mark <;> decide
  simpa using hall

theorem Symbol.text_ne_nil (mark : Symbol) : mark.text.toList ≠ [] := by
  cases mark <;> decide

namespace Keyword

theorem text_ne_nil (word : Keyword) : word.text.toList ≠ [] := by
  cases word <;> decide

theorem mem_all (word : Keyword) : word ∈ all := by
  cases word <;> decide

theorem not_isGapChar (word : Keyword) : ∀ x ∈ word.text.toList, Scan.isGapChar x = false := by
  have hall : word.text.toList.all (!Scan.isGapChar ·) = true := by cases word <;> decide
  simpa using hall

/-- No keyword begins with another one. -/
theorem eq_of_prefix {word word' : Keyword} (h : word.text.toList <+: word'.text.toList) :
    word = word' := by
  have hall : ∀ word ∈ all, ∀ word' ∈ all,
      word.text.toList.isPrefixOf word'.text.toList = true → word = word' := by decide
  exact hall word word.mem_all word' word'.mem_all (List.isPrefixOf_iff_prefix.2 h)

end Keyword

namespace Scan

variable {c : Char} {u v v' tail : List Char} {p : Char → Bool} {r : Reading}

/-! ## Readings up to a blank -/

def Breaks (cs : List Char) : Prop :=
  ∀ b ∈ cs.head?, isGapChar b = true

theorem isGapChar_iff :
    isGapChar c = true ↔ c = ' ' ∨ c = '\t' ∨ c = '\r' ∨ c = '\n' ∨ c = '\x0c' := by
  simp [isGapChar, or_assoc]

theorem not_isDigit_of_gap (h : isGapChar c = true) : c.isDigit = false := by
  rcases isGapChar_iff.1 h with rfl | rfl | rfl | rfl | rfl <;> rfl

theorem not_isHexChar_of_gap (h : isGapChar c = true) : isHexChar c = false := by
  rcases isGapChar_iff.1 h with rfl | rfl | rfl | rfl | rfl <;> rfl

theorem not_isWordChar_of_gap (h : isGapChar c = true) : isWordChar c = false := by
  rcases isGapChar_iff.1 h with rfl | rfl | rfl | rfl | rfl <;> rfl

theorem takeWhile_of_fits (h : ((u ++ v).takeWhile p).length ≤ u.length) :
    (u ++ v).takeWhile p = u.takeWhile p ∧ (u ++ v).dropWhile p = u.dropWhile p ++ v := by
  induction u with
  | nil =>
    have hnil : v.takeWhile p = [] := by simpa using h
    have hrest := List.takeWhile_append_dropWhile (p := p) (l := v)
    simpa [hnil] using hrest
  | cons x u ih => by_cases hx : p x <;> simp_all

theorem Breaks.takeWhile_eq_nil (hv : Breaks v) (hp : ∀ {b}, isGapChar b = true → p b = false) :
    v.takeWhile p = [] := by
  cases v with
  | nil => rfl
  | cons b v => simp [hp (hv b rfl)]

theorem Breaks.fits (hv : Breaks v) (hp : ∀ {b}, isGapChar b = true → p b = false) :
    ((u ++ v).takeWhile p).length ≤ u.length := by
  rw [List.takeWhile_append]
  split
  · simp [hv.takeWhile_eq_nil hp]
  · exact (List.takeWhile_prefix p).length_le

/-- A run that ends before a text goes on with something else ends there too before a blank. -/
theorem takeWhile_congr (hv : Breaks v') (hp : ∀ {b}, isGapChar b = true → p b = false)
    (h : ((u ++ v).takeWhile p).length ≤ u.length) :
    (u ++ v').takeWhile p = (u ++ v).takeWhile p :=
  (takeWhile_of_fits (hv.fits hp)).1.trans (takeWhile_of_fits h).1.symm

/-- A word without blanks stands in front of a text with a blank only if it ends before. -/
theorem prefix_congr {w : List Char} (hw : ∀ x ∈ w, isGapChar x = false) (hv : Breaks v')
    (h : w <+: u ++ v → w.length ≤ u.length) : w <+: u ++ v' ↔ w <+: u ++ v := by
  refine ⟨fun hpre => ?_, fun hpre => ?_⟩
  · rcases List.prefix_or_prefix_of_prefix hpre (List.prefix_append u v') with hwu | ⟨s, rfl⟩
    · exact hwu.trans (List.prefix_append _ _)
    · have hs := (List.prefix_append_right_inj u).1 hpre
      cases s with
      | nil => simp
      | cons b s =>
        obtain ⟨rest, rfl⟩ := hs
        have hblank := hv b rfl
        rw [hw b (by simp)] at hblank
        cases hblank
  · exact (List.prefix_of_prefix_length_le hpre (List.prefix_append u v) (h hpre)).trans
      (List.prefix_append _ _)

theorem readIdent_congr (hv : Breaks v') (h : ∀ r ∈ readIdent c (u ++ v), r.more ≤ u.length) :
    readIdent c (u ++ v') = readIdent c (u ++ v) := by
  unfold readIdent at h ⊢
  split
  next hc =>
    rw [if_pos hc] at h
    rw [takeWhile_congr hv not_isWordChar_of_gap (h _ rfl)]
  next => rfl

theorem readSymbol_congr (hv : Breaks v') (h : ∀ r ∈ readSymbol c (u ++ v), r.more ≤ u.length) :
    readSymbol c (u ++ v') = readSymbol c (u ++ v) := by
  unfold readSymbol at h ⊢
  congr 1
  refine List.filter_congr fun mark hmark => ?_
  rw [Bool.eq_iff_iff, List.isPrefixOf_iff_prefix, List.isPrefixOf_iff_prefix]
  refine prefix_congr (u := c :: u) mark.not_isGapChar hv fun hpre => ?_
  have := h _ (List.mem_map_of_mem (List.mem_filter.2 ⟨hmark, List.isPrefixOf_iff_prefix.2 hpre⟩))
  rw [String.length_toList, List.length_cons]
  exact Nat.sub_le_iff_le_add.1 this

theorem keywordAt?_eq_some_iff {word : Keyword} :
    keywordAt? cs = some word ↔ word.text.toList <+: cs.map foldKeywordChar := by
  have hmatch (word : Keyword) : ((cs.take word.text.length).map foldKeywordChar ==
      word.text.toList) = true ↔ word.text.toList <+: cs.map foldKeywordChar := by
    rw [beq_iff_eq, List.map_take, List.prefix_iff_eq_take, String.length_toList, eq_comm]
  unfold keywordAt?
  refine ⟨fun h => (hmatch word).1 (by simpa using List.find?_some h), fun h => ?_⟩
  cases hfind : Keyword.all.find? _ with
  | none => exact absurd ((hmatch word).2 h) (List.find?_eq_none.1 hfind word word.mem_all)
  | some other =>
    have hother := (hmatch other).1 (by simpa using List.find?_some hfind)
    rcases List.prefix_or_prefix_of_prefix hother h with hpre | hpre
    · rw [Keyword.eq_of_prefix hpre]
    · rw [Keyword.eq_of_prefix hpre]

theorem foldKeywordChar_of_gap (h : isGapChar c = true) : foldKeywordChar c = c := by
  rcases isGapChar_iff.1 h with rfl | rfl | rfl | rfl | rfl <;> rfl

theorem Breaks.map (hv : Breaks v) : Breaks (v.map foldKeywordChar) := by
  cases v with
  | nil => exact hv
  | cons b v => simpa [Breaks, foldKeywordChar_of_gap (hv b rfl)] using hv b rfl

theorem readKeyword_congr (hv : Breaks v') (h : ∀ r ∈ readKeyword c (u ++ v), r.more ≤ u.length) :
    readKeyword c (u ++ v') = readKeyword c (u ++ v) := by
  unfold readKeyword at h ⊢
  congr 1
  refine Option.ext fun word => ?_
  rw [keywordAt?_eq_some_iff, keywordAt?_eq_some_iff, ← List.cons_append, ← List.cons_append,
    List.map_append, List.map_append]
  refine prefix_congr word.not_isGapChar hv.map fun hpre => ?_
  have := h _ (Option.mem_map_of_mem _ (keywordAt?_eq_some_iff.2 (by simpa using hpre)))
  rw [String.length_toList, List.length_map, List.length_cons]
  exact Nat.sub_le_iff_le_add.1 this

/-! ## Numbers -/

def signWidth (cs : List Char) : Nat :=
  if cs.head? = some '+' ∨ cs.head? = some '-' then 1 else 0

/-- What digits behind a sign make of an exponent. -/
def exponentOf (negative : Bool) (width : Nat) (digits : List Char) : Option (Nat × Int) :=
  if digits.isEmpty then none
  else some (1 + width + digits.length,
    if negative then -(Text.decimalValue digits : Int) else Text.decimalValue digits)

theorem readExponent_cons (x : Char) (rest : List Char) :
    readExponent (x :: rest) = if x == 'e' || x == 'E' then
      exponentOf (rest.head? == some '-') (signWidth rest)
        ((rest.drop (signWidth rest)).takeWhile Char.isDigit) else none := by
  cases rest with
  | nil => simp [readExponent, exponentOf]
  | cons s rest =>
    by_cases hplus : s = '+'
    · subst hplus
      rfl
    by_cases hminus : s = '-'
    · subst hminus
      rfl
    · simp [readExponent, signWidth, exponentOf, hplus, hminus]

theorem Breaks.signWidth (hv : Breaks v) : signWidth v = 0 := by
  refine if_neg fun h => ?_
  rcases h with h | h <;> cases hv _ h

theorem two_le_of_readExponent (h : readExponent tail = some e) : 2 ≤ e.1 := by
  cases tail with
  | nil => cases h
  | cons x rest =>
    rw [readExponent_cons] at h
    grind [exponentOf, List.isEmpty_iff, List.length_pos_iff]

theorem readExponent_congr (hv : Breaks v') (h : ∀ e ∈ readExponent (u ++ v), e.1 ≤ u.length) :
    readExponent (u ++ v') = readExponent (u ++ v) := by
  have hnone (hu : u.length < 2) : readExponent (u ++ v) = none := by
    rw [Option.eq_none_iff_forall_not_mem]
    intro e he
    have := two_le_of_readExponent he
    have := h e he
    omega
  cases u with
  | nil =>
    rw [hnone (by simp)]
    cases v' with
    | nil => rfl
    | cons b v' =>
      rcases isGapChar_iff.1 (hv b rfl) with rfl | rfl | rfl | rfl | rfl <;> rfl
  | cons x u =>
    cases u with
    | nil =>
      rw [hnone (by simp), List.cons_append, List.nil_append, readExponent_cons, hv.signWidth,
        List.drop_zero, hv.takeWhile_eq_nil not_isDigit_of_gap]
      exact ite_self none
    | cons s u =>
      have hsign (w : List Char) : signWidth (s :: (u ++ w)) = signWidth [s] := rfl
      have hdrop (w : List Char) : (s :: (u ++ w)).drop (signWidth [s]) =
          (s :: u).drop (signWidth [s]) ++ w := by
        unfold signWidth
        split <;> rfl
      have hwidth : signWidth [s] ≤ 1 := by
        unfold signWidth
        split <;> simp
      simp only [List.cons_append, readExponent_cons, hsign, hdrop] at h ⊢
      split
      next hx =>
        rw [if_pos hx] at h
        rw [takeWhile_congr hv not_isDigit_of_gap]
        · rfl
        · by_contra hlong
          have := h _ (if_neg fun hempty => hlong (by simp [List.isEmpty_iff.1 hempty]))
          simp only [List.length_drop, List.length_cons] at hlong this
          omega
      next => rfl

theorem hexDigits_congr (hv : Breaks v')
    (h : hexDigits c (u ++ v) ≠ [] → 1 + (hexDigits c (u ++ v)).length ≤ u.length) :
    hexDigits c (u ++ v') = hexDigits c (u ++ v) := by
  by_cases hc : c = '0'
  · subst hc
    cases u with
    | nil =>
      have hold : hexDigits '0' v = [] := by
        by_contra hne
        simpa using h hne
      rw [List.nil_append, List.nil_append, hold]
      cases v' with
      | nil => rfl
      | cons b v' =>
        rcases isGapChar_iff.1 (hv b rfl) with rfl | rfl | rfl | rfl | rfl <;> rfl
    | cons x u =>
      simp only [hexDigits, List.cons_append] at h ⊢
      split
      next hx =>
        rw [if_pos hx] at h
        refine takeWhile_congr hv not_isHexChar_of_gap ?_
        by_contra hlong
        have := h fun hnil => hlong (by simp [hnil])
        rw [List.length_cons] at this
        omega
      next => rfl
  · unfold hexDigits
    split <;> simp_all

theorem le_more_floatReading (whole fraction rest : List Char) (width : Nat) :
    width ≤ (floatReading whole fraction rest width).more :=
  Nat.le_add_right _ _

theorem floatReading_congr (hv : Breaks v') {whole fraction : List Char} {width : Nat}
    (h : (floatReading whole fraction (u ++ v) width).more ≤ width + u.length) :
    floatReading whole fraction (u ++ v') width = floatReading whole fraction (u ++ v) width := by
  unfold floatReading at h ⊢
  rw [readExponent_congr hv fun e he => ?_]
  rw [Option.mem_def.1 he] at h
  simpa using h

/-- A number that begins with a digit, by its digits and what is behind them. -/
def decimalReading (whole rest : List Char) (width : Nat) : Reading :=
  match rest with
  | '.' :: rest =>
      let fraction := rest.takeWhile Char.isDigit
      floatReading whole fraction (rest.dropWhile Char.isDigit) (width + 1 + fraction.length)
  | rest =>
      if (readExponent rest).isSome then floatReading whole [] rest width
      else intReading (Text.decimalValue whole) width

theorem le_more_decimalReading (whole rest : List Char) (width : Nat) :
    width ≤ (decimalReading whole rest width).more := by
  unfold decimalReading
  split
  next rest => exact le_trans (by omega) (le_more_floatReading _ _ _ _)
  next =>
    split
    · exact le_more_floatReading _ _ _ _
    · exact le_rfl

theorem decimalReading_dot (whole : List Char) (width : Nat) :
    decimalReading whole ('.' :: tail) width =
      floatReading whole (tail.takeWhile Char.isDigit) (tail.dropWhile Char.isDigit)
        (width + 1 + (tail.takeWhile Char.isDigit).length) :=
  rfl

theorem decimalReading_of_ne_dot (hdot : tail.head? ≠ some '.') (whole : List Char) (width : Nat) :
    decimalReading whole tail width =
      if (readExponent tail).isSome then floatReading whole [] tail width
      else intReading (Text.decimalValue whole) width := by
  unfold decimalReading
  grind

theorem decimalReading_congr (hv : Breaks v') {whole : List Char} {width : Nat}
    (h : (decimalReading whole (u ++ v) width).more ≤ width + u.length) :
    decimalReading whole (u ++ v') width = decimalReading whole (u ++ v) width := by
  by_cases hu : u.head? = some '.'
  · obtain ⟨w, rfl⟩ := List.head?_eq_some_iff.1 hu
    simp only [List.cons_append, decimalReading_dot, List.length_cons] at h ⊢
    have hfit : ((w ++ v).takeWhile Char.isDigit).length ≤ w.length := by
      have := (le_more_floatReading _ _ _ _).trans h
      omega
    obtain ⟨htake, hdrop⟩ := takeWhile_of_fits hfit
    obtain ⟨htake', hdrop'⟩ := takeWhile_of_fits (hv.fits (u := w) not_isDigit_of_gap)
    have hlen := congrArg List.length (List.takeWhile_append_dropWhile (p := Char.isDigit) (l := w))
    rw [List.length_append] at hlen
    rw [htake, hdrop] at h
    rw [htake, hdrop, htake', hdrop']
    exact floatReading_congr hv (by omega)
  · have hold : (u ++ v).head? ≠ some '.' := by
      intro hdot
      cases u with
      | nil =>
        obtain ⟨w, rfl⟩ := List.head?_eq_some_iff.1 hdot
        have := (le_more_floatReading _ _ _ _).trans h
        rw [List.length_nil] at this
        omega
      | cons x u => exact hu hdot
    have hnew : (u ++ v').head? ≠ some '.' := by
      intro hdot
      cases u with
      | nil => cases hv _ hdot
      | cons x u => exact hu hdot
    rw [decimalReading_of_ne_dot hold] at h
    have hexp : readExponent (u ++ v') = readExponent (u ++ v) :=
      readExponent_congr hv fun e he => by simpa [floatReading, Option.mem_def.1 he] using h
    rw [decimalReading_of_ne_dot hold, decimalReading_of_ne_dot hnew, hexp]
    by_cases hsome : (readExponent (u ++ v)).isSome = true
    · rw [if_pos hsome] at h
      rw [if_pos hsome, if_pos hsome]
      exact floatReading_congr hv h
    · rw [if_neg hsome, if_neg hsome]

theorem readNumber_of_digit (hc : c.isDigit = true) : readNumber c tail =
    some (if !(hexDigits c tail).isEmpty then
      intReading (Text.ofDigits 16 ((hexDigits c tail).filterMap Text.hexDigit?))
        (1 + (hexDigits c tail).length)
      else decimalReading (c :: tail.takeWhile Char.isDigit) (tail.dropWhile Char.isDigit)
        (tail.takeWhile Char.isDigit).length) := by
  unfold readNumber decimalReading
  grind

theorem readNumber_dot : readNumber '.' tail =
    if (tail.takeWhile Char.isDigit).isEmpty then none
    else some (floatReading [] (tail.takeWhile Char.isDigit) (tail.dropWhile Char.isDigit)
      (tail.takeWhile Char.isDigit).length) :=
  rfl

theorem readNumber_congr (hv : Breaks v') (h : ∀ r ∈ readNumber c (u ++ v), r.more ≤ u.length) :
    readNumber c (u ++ v') = readNumber c (u ++ v) := by
  obtain ⟨htake', hdrop'⟩ := takeWhile_of_fits (hv.fits (u := u) not_isDigit_of_gap)
  have hlen := congrArg List.length (List.takeWhile_append_dropWhile (p := Char.isDigit) (l := u))
  rw [List.length_append] at hlen
  by_cases hc : c.isDigit = true
  · have h := h _ (readNumber_of_digit hc)
    have hhex : hexDigits c (u ++ v') = hexDigits c (u ++ v) := by
      refine hexDigits_congr hv fun hne => ?_
      rwa [if_pos (by simpa using hne)] at h
    rw [readNumber_of_digit hc, readNumber_of_digit hc, hhex]
    split at h
    next hne => rw [if_pos hne, if_pos hne]
    next hempty =>
      obtain ⟨htake, hdrop⟩ := takeWhile_of_fits ((le_more_decimalReading _ _ _).trans h)
      rw [htake, hdrop] at h
      rw [if_neg hempty, if_neg hempty, htake, hdrop, htake', hdrop']
      exact congrArg some (decimalReading_congr hv (hlen ▸ h))
  · by_cases hdot : c = '.'
    · subst hdot
      simp only [readNumber_dot] at h ⊢
      have hfit : ((u ++ v).takeWhile Char.isDigit).length ≤ u.length := by
        by_contra hlong
        have h := h _ (if_neg fun hempty => hlong (by simp [List.isEmpty_iff.1 hempty]))
        exact hlong ((le_more_floatReading _ _ _ _).trans h)
      obtain ⟨htake, hdrop⟩ := takeWhile_of_fits hfit
      rw [htake, hdrop] at h
      rw [htake, hdrop, htake', hdrop']
      split at h
      next hempty => rw [if_pos hempty, if_pos hempty]
      next hne =>
        rw [if_neg hne, if_neg hne]
        exact congrArg some (floatReading_congr hv (hlen ▸ h _ rfl))
    · simp [readNumber, hc, hdot]

/-! ## Quotes and comments -/

/-- A run that ends within a text ends there whatever follows. -/
theorem takeWhile_of_lt (h : ((u ++ v).takeWhile p).length < u.length) :
    (u ++ v').takeWhile p = (u ++ v).takeWhile p := by
  rw [List.takeWhile_append] at h ⊢
  rw [List.takeWhile_append]
  split at h
  · rw [List.length_append] at h
    omega
  next hlen => rw [if_neg hlen, if_neg hlen]

theorem stringLength_cons {x : Char} (hquote : x ≠ '"') (hescape : x ≠ '\\') (rest : List Char) :
    stringLength (x :: rest) = ((stringLength rest).1 + 1, (stringLength rest).2) := by
  rw [stringLength] <;> simp [hquote, hescape]

/-- What stands behind the closing quote of a string has no part in it. -/
theorem stringLength_take (h : stringLength cs = (n, true)) (rest : List Char) :
    stringLength (cs.take n ++ rest) = (n, true) := by
  fun_induction stringLength cs generalizing n with
  | case1 => cases h
  | case2 =>
    cases h
    rfl
  | case3 => cases h
  | case4 x tail hline m closed hm ih =>
    cases h
    simp [stringLength, ih hm]
  | case5 x tail hquote hline hescape m closed hm ih =>
    cases h
    have hx : x ≠ '\\' := by
      rintro rfl
      cases tail with
      | nil => cases hm
      | cons y tail => exact hescape y tail rfl rfl
    rw [List.take_succ_cons, List.cons_append, stringLength_cons hquote hx, ih hm]

theorem readString_congr (h : ∀ r ∈ readString c (u ++ v), r.more ≤ u.length ∧ r.lexeme ≠ .fault) :
    readString c (u ++ v') = readString c (u ++ v) := by
  unfold readString at h ⊢
  split
  next hc =>
    rw [if_pos hc] at h
    cases hlen : stringLength (u ++ v) with
    | mk n closed =>
      cases closed with
      | false => exact absurd rfl (h ⟨.fault, n⟩ (by simp [hlen])).2
      | true =>
        have hn : n ≤ u.length := (h _ (by rw [hlen]; rfl)).1
        have hnew := stringLength_take hlen (u.drop n ++ v')
        rw [List.take_append_of_le_length hn, ← List.append_assoc, List.take_append_drop] at hnew
        simp only [hnew]
        rw [List.take_append_of_le_length (by omega), List.take_append_of_le_length (by omega)]
  next => rfl

theorem readName_congr (h : ∀ r ∈ readName c (u ++ v), r.more ≤ u.length ∧ r.lexeme ≠ .fault) :
    readName c (u ++ v') = readName c (u ++ v) := by
  unfold readName at h ⊢
  split
  next hc =>
    rw [if_pos hc] at h
    dsimp only at h ⊢
    split at h
    next hclosed =>
      have hlt := (h _ rfl).1
      rw [takeWhile_of_lt hlt, if_pos hclosed]
      rw [List.head?_drop, List.getElem?_append_left hlt] at hclosed
      rw [if_pos]
      rwa [List.head?_drop, List.getElem?_append_left hlt]
    next => exact absurd rfl (h _ rfl).2
  next => rfl

theorem blockLength?_cons {x : Char} {rest : List Char}
    (hmark : ¬ (x = '*' ∧ rest.head? = some '/')) :
    blockLength? (x :: rest) = (blockLength? rest).map (· + 1) := by
  rw [blockLength?]
  rintro tail rfl rfl
  exact hmark ⟨rfl, rfl⟩

/-- What stands behind the end of a comment has no part in it. -/
theorem blockLength?_take (h : blockLength? cs = some n) (rest : List Char) :
    blockLength? (cs.take n ++ rest) = some n := by
  fun_induction blockLength? cs generalizing n with
  | case1 tail =>
    cases h
    rfl
  | case2 x tail hmark ih =>
    obtain ⟨m, hm, rfl⟩ := Option.map_eq_some_iff.1 h
    obtain ⟨body, htake, -⟩ := eq_of_blockLength? hm
    have hne : tail.take m ≠ [] := by simp [htake]
    rw [List.take_succ_cons, List.cons_append, blockLength?_cons, ih hm, Option.map_some]
    rintro ⟨rfl, hslash⟩
    cases tail with
    | nil => simp at hne
    | cons y tail =>
      obtain rfl : y = '/' := by
        cases m with
        | zero => simp at hne
        | succ m => simpa using hslash
      exact hmark tail rfl rfl
  | case3 => cases h

theorem blockLength?_eq_none_iff : blockLength? cs = none ↔ ¬ ['*', '/'] <:+: cs := by
  fun_induction blockLength? cs with
  | case1 tail => simpa using ⟨[], tail, rfl⟩
  | case2 x tail hmark ih =>
    rw [Option.map_eq_none_iff, ih, List.infix_cons_iff, not_or, iff_and_self]
    rintro - hpre
    obtain ⟨rfl, more, rfl⟩ := List.cons_prefix_cons.1 hpre
    exact hmark more rfl rfl
  | case3 => simp

/-! ## The longest reading -/

theorem le_more_reading (h : r ∈ readings c tail) : r.more ≤ (reading c tail).more := by
  have hfold (first : Reading) (others : List Reading) : ∀ r ∈ first :: others, r.more ≤
      (others.foldl (fun best r => if best.more < r.more then r else best) first).more := by
    induction others generalizing first with
    | nil => simp
    | cons other others ih =>
      intro r hr
      have := ih (if first.more < other.more then other else first)
      rw [List.foldl_cons]
      grind
  unfold reading
  split
  next hnone => simp [hnone] at h
  next first others hsome => exact hfold first others r (hsome ▸ h)

theorem readKeyword_eq_none
    (h : Keyword.all.any (·.text.toList.head? == some (foldKeywordChar c)) = false) :
    readKeyword c tail = none := by
  refine Option.map_eq_none_iff.2 (Option.eq_none_iff_forall_not_mem.2 fun word hword => ?_)
  refine List.any_eq_false.1 h word word.mem_all ?_
  obtain ⟨x, text, htext⟩ := List.exists_cons_of_ne_nil word.text_ne_nil
  have hpre := keywordAt?_eq_some_iff.1 hword
  rw [htext, List.map_cons] at hpre
  rw [htext, (List.cons_prefix_cons.1 hpre).1]
  simp

/-- Whether a number, a word or a symbol may begin with a character. -/
def beginsWord (c : Char) : Bool :=
  c.isDigit || isWordStart c || Symbol.all.any (·.text.toList.head? == some c) ||
    Keyword.all.any (·.text.toList.head? == some (foldKeywordChar c))

theorem readings_of_not_beginsWord (h : beginsWord c = false) :
    readings c tail = [readGap c tail, readString c tail, readName c tail].filterMap id := by
  simp only [beginsWord, Bool.or_eq_false_iff] at h
  obtain ⟨⟨⟨hdigit, hstart⟩, hsymbol⟩, hkeyword⟩ := h
  rw [List.any_eq_false] at hsymbol
  have hdot : c ≠ '.' := fun hc => hsymbol .dot (by decide) (by rw [hc]; rfl)
  have hslash : c ≠ '/' := fun hc => hsymbol .slash (by decide) (by rw [hc]; rfl)
  have hcomment : readComment c tail = none := by
    unfold readComment
    grind
  have hsymbols : readSymbol c tail = [] := by
    refine List.map_eq_nil_iff.2 (List.filter_eq_nil_iff.2 fun mark hmark hpre => ?_)
    refine hsymbol mark hmark ?_
    obtain ⟨x, text, htext⟩ := List.exists_cons_of_ne_nil mark.text_ne_nil
    rw [List.isPrefixOf_iff_prefix, htext] at hpre
    rw [htext, (List.cons_prefix_cons.1 hpre).1]
    simp
  simp [readings, readNumber, readIdent, hcomment, hsymbols, readKeyword_eq_none hkeyword, hdigit, hstart, hdot,
    List.filterMap_cons]

theorem reading_of_quoted (h : r ∈ readString c tail ∨ r ∈ readName c tail) :
    reading c tail = r := by
  have hc : c = '"' ∨ c = '\'' := by
    unfold readString readName at h
    grind
  unfold reading
  rcases hc with rfl | rfl
  · rw [readings_of_not_beginsWord (by decide)]
    simp_all [readGap, readName, isGapChar]
  · rw [readings_of_not_beginsWord (by decide)]
    simp_all [readGap, readString, isGapChar]

/-- A lexeme that ends before a text goes on with something else is read there too before a
blank. -/
theorem reading_congr (hv : Breaks v') (hgap : readGap c (u ++ v') = readGap c (u ++ v))
    (hcomment : readComment c (u ++ v') = readComment c (u ++ v))
    (hmore : (reading c (u ++ v)).more ≤ u.length)
    (hlexeme : (reading c (u ++ v)).lexeme ≠ .fault) : reading c (u ++ v') = reading c (u ++ v) := by
  have hall : ∀ r ∈ readings c (u ++ v), r.more ≤ u.length := fun r hr =>
    (le_more_reading hr).trans hmore
  have hquoted {r : Reading} (hr : r ∈ readString c (u ++ v) ∨ r ∈ readName c (u ++ v)) :
      r.more ≤ u.length ∧ r.lexeme ≠ .fault := by
    rw [← reading_of_quoted hr]
    exact ⟨hmore, hlexeme⟩
  have hnumber := readNumber_congr (c := c) (v := v) hv fun r hr =>
    hall r (mem_readings.2 (by simp [Option.mem_def.1 hr]))
  have hkeyword := readKeyword_congr (c := c) (v := v) hv fun r hr =>
    hall r (mem_readings.2 (by simp [Option.mem_def.1 hr]))
  have hident := readIdent_congr (c := c) (v := v) hv fun r hr =>
    hall r (mem_readings.2 (by simp [Option.mem_def.1 hr]))
  have hsymbol := readSymbol_congr (c := c) (v := v) hv fun r hr =>
    hall r (mem_readings.2 (.inr hr))
  have heq : readings c (u ++ v') = readings c (u ++ v) := by
    unfold readings
    rw [hgap, hcomment, hnumber, hkeyword, hident, hsymbol,
      readString_congr fun r hr => hquoted (.inl hr), readName_congr fun r hr => hquoted (.inr hr)]
  unfold reading at hlexeme ⊢
  rw [heq]
  split
  next hnone => simp [hnone] at hlexeme
  next => rfl

/-! ## Readings lie in the text -/

theorem length_takeWhile_dropWhile (p : Char → Bool) (cs : List Char) :
    (cs.takeWhile p).length + (cs.dropWhile p).length = cs.length := by
  rw [← List.length_append, List.takeWhile_append_dropWhile]

theorem le_length_of_readExponent (h : readExponent tail = some e) : e.1 ≤ tail.length := by
  cases tail with
  | nil => cases h
  | cons x rest =>
    have := length_takeWhile_dropWhile Char.isDigit (rest.drop (signWidth rest))
    have : signWidth rest ≤ rest.length := by
      unfold signWidth
      cases rest <;> grind
    rw [readExponent_cons] at h
    grind [exponentOf]

theorem more_floatReading_le (whole fraction rest : List Char) (width : Nat) :
    (floatReading whole fraction rest width).more ≤ width + rest.length := by
  unfold floatReading
  cases h : readExponent rest with
  | none => simp
  | some e => simpa using le_length_of_readExponent h

theorem more_decimalReading_le (whole rest : List Char) (width : Nat) :
    (decimalReading whole rest width).more ≤ width + rest.length := by
  unfold decimalReading
  split
  next rest =>
    have := length_takeWhile_dropWhile Char.isDigit rest
    exact (more_floatReading_le _ _ _ _).trans (by rw [List.length_cons]; omega)
  next =>
    split
    · exact more_floatReading_le _ _ _ _
    · exact Nat.le_add_right _ _

theorem length_hexDigits_lt (h : hexDigits c tail ≠ []) : (hexDigits c tail).length < tail.length := by
  unfold hexDigits at h ⊢
  split at h
  next x rest =>
    split
    · exact Nat.lt_succ_of_le (List.takeWhile_prefix isHexChar).length_le
    · exact Nat.succ_pos _
  next => exact absurd rfl h

theorem more_le_of_readNumber (h : readNumber c tail = some r) : r.more ≤ tail.length := by
  have hlen := length_takeWhile_dropWhile Char.isDigit tail
  by_cases hc : c.isDigit = true
  · rw [readNumber_of_digit hc] at h
    cases h
    split
    next hhex =>
      have : (hexDigits c tail).length < tail.length := length_hexDigits_lt (by simpa using hhex)
      exact (Nat.add_comm _ _).trans_le this
    next => exact (more_decimalReading_le _ _ _).trans hlen.le
  · by_cases hdot : c = '.'
    · subst hdot
      rw [readNumber_dot] at h
      split at h
      · cases h
      · cases h
        exact (more_floatReading_le _ _ _ _).trans hlen.le
    · simp [readNumber, hc, hdot] at h

theorem stringLength_le (cs : List Char) : (stringLength cs).1 ≤ cs.length := by
  fun_induction stringLength cs <;> simp_all

theorem blockLength?_le (h : blockLength? cs = some n) : n ≤ cs.length := by
  fun_induction blockLength? cs generalizing n with
  | case1 rest =>
    cases h
    simp
  | case2 x rest hmark ih =>
    obtain ⟨m, hm, rfl⟩ := Option.map_eq_some_iff.1 h
    simpa using ih hm
  | case3 => cases h

theorem more_le_length (h : r ∈ readings c tail) : r.more ≤ tail.length := by
  have hrun {p : Char → Bool} {cs : List Char} : (cs.takeWhile p).length ≤ cs.length :=
    (List.takeWhile_prefix p).length_le
  rcases mem_readings.1 h with (hr | hr | hr | hr | hr | hr | hr) | hr
  · unfold readGap at hr
    split at hr <;> cases hr
    exact hrun
  · unfold readComment at hr
    split at hr
    next rest =>
      cases hr
      exact (Nat.add_comm _ _).trans_le (Nat.succ_le_succ hrun)
    next rest =>
      obtain ⟨n, hn, rfl⟩ := Option.map_eq_some_iff.1 hr
      exact (Nat.add_comm _ _).trans_le (Nat.succ_le_succ (blockLength?_le hn))
    next => cases hr
  · exact more_le_of_readNumber hr
  · have := stringLength_le tail
    unfold readString at hr
    grind
  · have hlen : (tail.takeWhile fun d => d != '\'' && d != '\n').length ≤ tail.length := hrun
    simp only [readName, List.head?_drop] at hr
    grind
  · obtain ⟨word, hword, rfl⟩ := Option.map_eq_some_iff.1 hr
    have := (keywordAt?_eq_some_iff.1 hword).length_le
    rw [String.length_toList, List.length_map, List.length_cons] at this
    exact Nat.sub_le_iff_le_add.2 this
  · unfold readIdent at hr
    split at hr <;> cases hr
    exact hrun
  · obtain ⟨mark, hmark, rfl⟩ := List.mem_map.1 hr
    have := (List.isPrefixOf_iff_prefix.1 (List.mem_filter.1 hmark).2).length_le
    rw [String.length_toList, List.length_cons] at this
    exact Nat.sub_le_iff_le_add.2 this

/-! ## Texts that agree up to a blank -/

/-- Texts that are the same up to a blank in the second one, or its end. No end of a block comment is
in the second one behind it if there is none in the first one. -/
def Agree (cs cs' : List Char) : Prop :=
  ∃ u v v', cs = u ++ v ∧ cs' = u ++ v' ∧ Breaks v' ∧
    (['*', '/'] <:+: v' → ['*', '/'] <:+: v)

theorem Agree.append {cs' : List Char} (h : Agree cs cs') (a : List Char) :
    Agree (a ++ cs) (a ++ cs') := by
  obtain ⟨u, v, v', rfl, rfl, hv, hclose⟩ := h
  exact ⟨a ++ u, v, v', by simp, by simp, hv, hclose⟩

/-- The two characters that end a comment are not on both sides of a blank. -/
theorem infix_append_of_breaks (hv : Breaks v) (h : ['*', '/'] <:+: u ++ v) :
    ['*', '/'] <:+: u ∨ ['*', '/'] <:+: v := by
  rcases List.infix_append_iff.1 h with hu | hv' | ⟨l1, l2, heq, hl1, hl2⟩
  · exact .inl hu
  · exact .inr hv'
  · rcases List.append_eq_cons_iff.1 heq.symm with ⟨rfl, rfl⟩ | ⟨l, rfl, hl⟩
    · exact .inr hl2.isInfix
    · rcases List.append_eq_singleton_iff.1 hl.symm with ⟨rfl, rfl⟩ | ⟨rfl, rfl⟩
      · obtain ⟨rest, rfl⟩ := hl2
        cases hv '/' rfl
      · exact .inl hl1.isInfix

theorem Agree.closes {cs' : List Char} (h : Agree cs cs') (hin : ['*', '/'] <:+: cs') :
    ['*', '/'] <:+: cs := by
  obtain ⟨u, v, v', rfl, rfl, hv, hclose⟩ := h
  rcases infix_append_of_breaks hv hin with hin | hin
  · exact hin.trans (List.prefix_append u v).isInfix
  · exact (hclose hin).trans (List.suffix_append u v).isInfix

theorem readComment_congr (hv : Breaks v')
    (hclose : ['*', '/'] <:+: v' → ['*', '/'] <:+: v)
    (h : ∀ r ∈ readComment c (u ++ v), r.more < u.length) :
    readComment c (u ++ v') = readComment c (u ++ v) := by
  cases u with
  | nil =>
    have hold : readComment c v = none :=
      Option.eq_none_iff_forall_not_mem.2 fun r hr => Nat.not_lt_zero _ (h r hr)
    have hnew : readComment c v' = none := by
      unfold readComment
      split
      · cases hv '/' rfl
      · cases hv '*' rfl
      · rfl
    rw [List.nil_append, List.nil_append, hold, hnew]
  | cons x u =>
    by_cases hc : c = '/' ∧ (x = '/' ∨ x = '*')
    · obtain ⟨rfl, rfl | rfl⟩ := hc
      · have hlt : 1 + ((u ++ v).takeWhile (· != '\n')).length < u.length + 1 := h _ rfl
        simp only [readComment, List.cons_append]
        rw [takeWhile_of_lt (v := v) (by omega)]
      · simp only [readComment, List.cons_append] at h ⊢
        congr 1
        cases hlen : blockLength? (u ++ v) with
        | none =>
          rw [blockLength?_eq_none_iff] at hlen ⊢
          exact fun hin => hlen (Agree.closes ⟨u, v, v', rfl, rfl, hv, hclose⟩ hin)
        | some n =>
          have hn : n ≤ u.length := by
            have := h ⟨.gap, 1 + n⟩ (by simp [hlen])
            simp at this
            omega
          have hnew := blockLength?_take hlen (u.drop n ++ v')
          rwa [List.take_append_of_le_length hn, ← List.append_assoc, List.take_append_drop] at hnew
    · unfold readComment
      grind

/-- A comment is longer than any symbol that begins with a slash. -/
theorem reading_of_comment (h : readComment c tail = some r) : reading c tail = r := by
  have hshort (mark : Symbol) (hslash : mark.text.toList.head? = some '/') :
      mark.text.toList[1]? ≠ some '/' ∧ mark.text.toList[1]? ≠ some '*' := by
    revert hslash
    cases mark <;> decide
  have hmem := mem_readings.2 (.inl (.inr (.inl h)))
  have hlong := le_more_reading hmem
  obtain ⟨rfl, x, rest, rfl, hx, hpos⟩ : c = '/' ∧ ∃ x rest, tail = x :: rest ∧
      (x = '/' ∨ x = '*') ∧ 0 < r.more := by
    unfold readComment at h
    split at h
    next rest =>
      cases h
      exact ⟨rfl, '/', rest, rfl, .inl rfl, Nat.add_pos_left Nat.one_pos _⟩
    next rest =>
      obtain ⟨n, -, rfl⟩ := Option.map_eq_some_iff.1 h
      exact ⟨rfl, '*', rest, rfl, .inr rfl, Nat.add_pos_left Nat.one_pos _⟩
    next => cases h
  rcases mem_readings.1 (reading_mem_of_mem hmem) with (hr' | hr' | hr' | hr' | hr' | hr' | hr') | hr'
  · simp [readGap, isGapChar] at hr'
  · exact (Option.some.inj (h.symm.trans hr')).symm
  · simp [readNumber] at hr'
  · simp [readString] at hr'
  · simp [readName] at hr'
  · rw [readKeyword_eq_none (by decide)] at hr'
    cases hr'
  · simp [readIdent, isWordStart] at hr'
  · obtain ⟨mark, hmark, hmore⟩ := List.mem_map.1 hr'
    obtain ⟨-, hpre⟩ := List.mem_filter.1 hmark
    obtain ⟨s, hs⟩ := List.isPrefixOf_iff_prefix.1 hpre
    have hlen : 1 < mark.text.toList.length := by
      rw [← hmore] at hlong
      rw [String.length_toList]
      exact Nat.lt_sub_iff_add_lt.1 (hpos.trans_le hlong)
    have hsecond : mark.text.toList[1]? = some x := by
      rw [← List.getElem?_append_left hlen, hs]
      rfl
    have hfirst : mark.text.toList.head? = some '/' := by
      rw [List.head?_eq_getElem?, ← List.getElem?_append_left (by omega), hs]
      rfl
    have hne := hshort mark hfirst
    rw [hsecond] at hne
    rcases hx with rfl | rfl
    · exact absurd rfl hne.1
    · exact absurd rfl hne.2

theorem reading_of_gapChar (h : isGapChar c = true) :
    reading c tail = ⟨.gap, (tail.takeWhile isGapChar).length⟩ := by
  have hreadings : readings c tail = [⟨.gap, (tail.takeWhile isGapChar).length⟩] := by
    have hword : beginsWord c = false := by
      rcases isGapChar_iff.1 h with rfl | rfl | rfl | rfl | rfl <;> decide
    have hquote : c ≠ '"' ∧ c ≠ '\'' := by
      rcases isGapChar_iff.1 h with rfl | rfl | rfl | rfl | rfl <;> decide
    simp [readings_of_not_beginsWord hword, readGap, readString, readName, h, hquote]
  rw [reading, hreadings]
  rfl

theorem not_isGapChar_of_token (h : (reading c tail).lexeme = .token token) :
    isGapChar c = false := by
  by_contra hgap
  rw [reading_of_gapChar (Bool.of_not_eq_false hgap)] at h
  cases h

theorem lexeme_of_comment (h : readComment c tail = some r) : r.lexeme = .gap := by
  unfold readComment at h
  split at h
  · cases h
    rfl
  · obtain ⟨n, -, rfl⟩ := Option.map_eq_some_iff.1 h
    rfl
  · cases h

section Agree

variable {a cs cs' : List Char}

/-- A token is the same if what follows it agrees. -/
theorem reading_of_agree (hagree : Agree cs cs') (h : (reading c (a ++ cs)).lexeme = .token token)
    (hmore : (reading c (a ++ cs)).more ≤ a.length) :
    reading c (a ++ cs') = reading c (a ++ cs) := by
  obtain ⟨u, v, v', rfl, rfl, hv, hclose⟩ := hagree
  rw [← List.append_assoc] at h hmore ⊢
  rw [← List.append_assoc]
  have hgap := not_isGapChar_of_token h
  have hcomment : ∀ r, readComment c (a ++ u ++ v) ≠ some r := fun r hr => by
    rw [reading_of_comment hr, lexeme_of_comment hr] at h
    cases h
  refine reading_congr hv ?_ (readComment_congr hv hclose fun r hr => absurd hr (hcomment r)) ?_ ?_
  · simp [readGap, hgap]
  · rw [List.length_append]
    omega
  · rw [h]
    exact Lexeme.noConfusion

/-- So is a gap, if it ends before. -/
theorem reading_of_agree_gap (hagree : Agree cs cs') (h : (reading c (a ++ cs)).lexeme = .gap)
    (hmore : (reading c (a ++ cs)).more < a.length) :
    reading c (a ++ cs') = reading c (a ++ cs) := by
  by_cases hc : isGapChar c = true
  · rw [reading_of_gapChar hc] at hmore ⊢
    rw [reading_of_gapChar hc, takeWhile_of_lt hmore]
  · obtain ⟨u, v, v', rfl, rfl, hv, hclose⟩ := hagree
    rw [← List.append_assoc] at h hmore ⊢
    rw [← List.append_assoc]
    have hcomment := (gap_or_comment h).resolve_left (by simp [readGap, hc])
    refine reading_of_comment ((readComment_congr hv hclose fun r hr => ?_).trans hcomment)
    cases hcomment.symm.trans hr
    rw [List.length_append]
    omega

end Agree

end Scan

end ActorScript
