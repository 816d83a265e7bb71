import ActorScript.Token.Scan
import Mathlib.Data.List.TakeDrop
import Mathlib.Data.List.TakeWhile

/-! # Where the tokens of a text lie

Scanning cuts a text into stretches that follow each other without a break. Some become tokens;
the others are blanks or comments.
-/

namespace ActorScript

variable {cs tail : List Char} {c : Char} {r : Reading} {ts : List Lexed} {text : String}

/-! ## Bytes -/

namespace Text

@[simp]
theorem byteCount_nil : byteCount [] = 0 :=
  rfl

@[simp]
theorem byteCount_cons (c : Char) (cs : List Char) :
    byteCount (c :: cs) = charBytes c + byteCount cs :=
  rfl

theorem byteCount_eq (cs : List Char) : byteCount cs = (String.ofList cs).utf8ByteSize := by
  induction cs with
  | nil => rfl
  | cons c cs ih =>
    rw [byteCount_cons, ih, ← List.singleton_append, String.ofList_append,
      ← String.singleton_eq_ofList, String.utf8ByteSize_append, String.utf8ByteSize_singleton,
      charBytes]

theorem byteCount_append (cs cs' : List Char) :
    byteCount (cs ++ cs') = byteCount cs + byteCount cs' := by
  simp [byteCount_eq, String.ofList_append]

theorem byteCount_pos (h : cs ≠ []) : 0 < byteCount cs := by
  obtain ⟨c, rest, rfl⟩ := List.exists_cons_of_ne_nil h
  exact Nat.add_pos_left (Char.utf8Size_pos c) _

end Text

open Text

/-! ## Gaps -/

/-- A stretch between tokens, and the characters behind it. -/
inductive Gap : List Char → List Char → Prop
  | blanks {cs rest : List Char} : (∀ c ∈ cs, Scan.isGapChar c = true) → Gap cs rest
  | line {body rest : List Char} :
      '\n' ∉ body → (∀ c ∈ rest.head?, c = '\n') → Gap ('/' :: '/' :: body) rest
  | block {body rest : List Char} :
      ¬ ['*', '/'] <:+: body → Gap ('/' :: '*' :: (body ++ ['*', '/'])) rest

namespace Scan

/-- The end mark that is found is the first one. -/
theorem eq_of_blockLength? {n : Nat} (h : blockLength? cs = some n) :
    ∃ body, cs.take n = body ++ ['*', '/'] ∧ ¬ ['*', '/'] <:+: body := by
  fun_induction blockLength? cs generalizing n with
  | case1 rest =>
    cases h
    exact ⟨[], rfl, by simp⟩
  | case2 c rest hmark ih =>
    obtain ⟨m, hm, rfl⟩ := Option.map_eq_some_iff.1 h
    obtain ⟨body, htake, hbody⟩ := ih hm
    refine ⟨c :: body, by rw [List.take_succ_cons, htake, List.cons_append], fun hin => ?_⟩
    rcases List.infix_cons_iff.1 hin with hstart | hin
    · obtain ⟨rfl, more, rfl⟩ := List.cons_prefix_cons.1 hstart
      have hrest := List.take_append_drop m rest
      rw [htake] at hrest
      exact hmark _ rfl hrest.symm
    · exact hbody hin
  | case3 => cases h

theorem gap_of_readGap (h : readGap c tail = some r) :
    Gap (c :: tail.take r.more) (tail.drop r.more) := by
  unfold readGap at h
  split at h
  next hc =>
    cases h
    rw [← List.prefix_iff_eq_take.1 (List.takeWhile_prefix _)]
    exact .blanks (by simpa [hc] using fun d hd => List.mem_takeWhile_imp hd)
  next => cases h

theorem gap_of_readComment (h : readComment c tail = some r) :
    Gap (c :: tail.take r.more) (tail.drop r.more) := by
  unfold readComment at h
  split at h
  next rest =>
    cases h
    rw [Nat.add_comm, List.take_succ_cons, List.drop_succ_cons,
      ← List.prefix_iff_eq_take.1 (List.takeWhile_prefix _)]
    refine .line (fun hin => by simpa using List.mem_takeWhile_imp hin) fun d hd => ?_
    have hrest := List.head?_dropWhile_not (· != '\n') rest
    have hdrop := congrArg (List.drop (rest.takeWhile (· != '\n')).length)
      (List.takeWhile_append_dropWhile (p := (· != '\n')) (l := rest))
    rw [List.drop_left] at hdrop
    rw [hdrop, Option.mem_def.1 hd] at hrest
    simpa using hrest
  next rest =>
    obtain ⟨n, hn, rfl⟩ := Option.map_eq_some_iff.1 h
    obtain ⟨body, htake, hbody⟩ := eq_of_blockLength? hn
    rw [Nat.add_comm, List.take_succ_cons, List.drop_succ_cons, htake]
    exact .block hbody
  next => cases h

/-- The longest reading is one of those offered. -/
theorem reading_mem_of_mem (h : r ∈ readings c tail) : reading c tail ∈ readings c tail := by
  have hfold (first : Reading) (others : List Reading) :
      others.foldl (fun best r => if best.more < r.more then r else best) first ∈
        first :: others := by
    induction others generalizing first with
    | nil => simp
    | cons r others ih =>
      have := ih (if first.more < r.more then r else first)
      rw [List.foldl_cons]
      grind
  unfold reading
  split
  next hnone => simp [hnone] at h
  next first others hsome => exact hsome ▸ hfold first others

theorem reading_mem (h : (reading c tail).lexeme ≠ .fault) : reading c tail ∈ readings c tail := by
  cases hreadings : readings c tail with
  | nil => simp [reading, hreadings] at h
  | cons r others =>
    rw [← hreadings]
    exact reading_mem_of_mem (r := r) (by simp [hreadings])

theorem mem_readings : r ∈ readings c tail ↔
    (readGap c tail = some r ∨ readComment c tail = some r ∨ readNumber c tail = some r ∨
      readString c tail = some r ∨ readName c tail = some r ∨ readKeyword c tail = some r ∨
      readIdent c tail = some r) ∨ r ∈ readSymbol c tail := by
  simp only [readings, List.mem_append, List.mem_filterMap, List.mem_cons, List.not_mem_nil,
    or_false, id, exists_eq_or_imp, exists_eq_left]

/-- What becomes no token is blank or a comment. -/
theorem gap_or_comment (h : (reading c tail).lexeme = .gap) :
    readGap c tail = some (reading c tail) ∨ readComment c tail = some (reading c tail) := by
  have hmem : reading c tail ∈ readings c tail := reading_mem (by simp [h])
  generalize reading c tail = r at h hmem
  rcases mem_readings.1 hmem with (hr | hr | hr | hr | hr | hr | hr) | hr
  · exact .inl hr
  · exact .inr hr
  · grind [readNumber, intReading, floatReading]
  · grind [readString]
  · grind [readName]
  · obtain ⟨word, -, rfl⟩ := Option.map_eq_some_iff.1 hr
    cases h
  · grind [readIdent]
  · grind [readSymbol]

theorem gap_of_reading (h : (reading c tail).lexeme = .gap) :
    Gap (c :: tail.take (reading c tail).more) (tail.drop (reading c tail).more) := by
  rcases gap_or_comment h with hr | hr
  · exact gap_of_readGap hr
  · exact gap_of_readComment hr

end Scan

/-! ## Stretches -/

/-- A text from an offset on, cut into gaps and the stretches of tokens. -/
inductive Tiled : Nat → List Char → List Lexed → Prop
  | nil {offset : Nat} : Tiled offset [] []
  | gap {offset : Nat} {gap rest : List Char} {ts : List Lexed} :
      Gap gap rest → Tiled (offset + byteCount gap) rest ts → Tiled offset (gap ++ rest) ts
  | token {offset : Nat} {own rest : List Char} {token : Token} {ts : List Lexed} :
      own ≠ [] → Tiled (offset + byteCount own) rest ts →
      Tiled offset (own ++ rest) (⟨token, offset, offset + byteCount own⟩ :: ts)

theorem tiled_of_scanFrom {offset skip : Nat} (h : scanFrom offset skip cs = .ok ts) :
    Tiled (offset + byteCount (cs.take skip)) (cs.drop skip) ts := by
  induction cs generalizing offset skip ts with
  | nil =>
    cases h
    simpa using Tiled.nil
  | cons c tail ih =>
    cases skip with
    | succ skip => simpa [Nat.add_assoc] using ih h
    | zero =>
      have hcut : c :: tail = (c :: tail.take (Scan.reading c tail).more) ++
          tail.drop (Scan.reading c tail).more := by simp
      simp only [scanFrom] at h
      split at h
      · cases h
      next hgap =>
        have hrest := ih h
        rw [List.take_zero, List.drop_zero, hcut]
        exact .gap (Scan.gap_of_reading hgap) (by simpa [Nat.add_assoc] using hrest)
      next token htoken =>
        cases hrest : scanFrom (offset + charBytes c) (Scan.reading c tail).more tail with
        | error e =>
          rw [hrest] at h
          cases h
        | ok rest =>
          rw [hrest] at h
          cases h
          have hrest := ih hrest
          rw [List.take_zero, List.drop_zero, hcut]
          exact .token (by simp) (by simpa [Nat.add_assoc] using hrest)

/-- A point of a text between two characters, or at an end. -/
theorem isValid_of_append {before behind : List Char} (h : text.toList = before ++ behind) :
    String.Pos.Raw.IsValid text ⟨byteCount before⟩ := by
  refine String.Pos.Raw.isValid_iff_exists_append.2
    ⟨String.ofList before, String.ofList behind, ?_, ?_⟩
  · rw [← String.ofList_append, ← h, String.ofList_toList]
  · rw [byteCount_eq]
    rfl

/-- Tokens with none of their bytes in common, in the order of the text. -/
structure InOrder (ts : List Lexed) : Prop where
  filled : ∀ t ∈ ts, t.span.start < t.span.stop
  apart : ts.Pairwise fun t t' => t.span.stop ≤ t'.span.start

theorem Tiled.ordered {offset : Nat} (h : Tiled offset cs ts) :
    InOrder ts ∧ ∀ t ∈ ts, offset ≤ t.span.start := by
  induction h with
  | nil => exact ⟨⟨by simp, .nil⟩, by simp⟩
  | gap _ _ ih => exact ⟨ih.1, fun t ht => Nat.le_of_add_right_le (ih.2 t ht)⟩
  | token hown _ ih =>
    have := byteCount_pos hown
    refine ⟨⟨?_, .cons ih.2 ih.1.apart⟩, ?_⟩
    · simpa [this] using ih.1.filled
    · simpa using fun t ht => Nat.le_of_add_right_le (ih.2 t ht)

/-- Tokens begin and end between two characters, or at an end of the text. -/
theorem Tiled.isValid (before : List Char) (h : Tiled (byteCount before) cs ts)
    (htext : text.toList = before ++ cs) :
    ∀ t ∈ ts, String.Pos.Raw.IsValid text ⟨t.span.start⟩ ∧
      String.Pos.Raw.IsValid text ⟨t.span.stop⟩ := by
  generalize hoffset : byteCount before = offset at h
  induction h generalizing before with
  | nil => simp
  | @gap offset gap rest ts _ _ ih =>
    subst hoffset
    exact ih (before ++ gap) (by simp [htext]) (by simp [byteCount_append])
  | @token offset own rest token ts _ _ ih =>
    subst hoffset
    have hnext : text.toList = (before ++ own) ++ rest := by simp [htext]
    have hstop := isValid_of_append hnext
    rw [byteCount_append] at hstop
    simpa using ⟨⟨isValid_of_append htext, hstop⟩, ih _ hnext (byteCount_append _ _)⟩

/-- The tokens of a text are stretches of it, with bytes of their own, between characters, in
the order of the text, and what is in front of them, between them and behind them is blanks and
whole comments. -/
theorem scan_tiles_text {text : String} {tokens : List Lexed} (h : scan text = .ok tokens) :
    Tiled 0 text.toList tokens ∧
      (∀ t ∈ tokens, t.span.start < t.span.stop ∧ t.span.stop ≤ text.utf8ByteSize ∧
        String.Pos.Raw.IsValid text ⟨t.span.start⟩ ∧ String.Pos.Raw.IsValid text ⟨t.span.stop⟩) ∧
      tokens.Pairwise fun t t' => t.span.stop ≤ t'.span.start := by
  have htiled := tiled_of_scanFrom h
  have hordered := htiled.ordered.1
  have hvalid := htiled.isValid [] rfl
  exact ⟨by simpa using htiled, fun t ht => ⟨hordered.filled t ht, (hvalid t ht).2.le_rawEndPos,
    hvalid t ht⟩, hordered.apart⟩

/-- A comment with a star in it, and one that ends with its line. -/
theorem comments_tiled :
    let text := "a/* * */ //b\n=c"
    let tokens : List Lexed := [⟨.ident "a", 0, 1⟩, ⟨.symbol .assign, 13, 14⟩, ⟨.ident "c", 14, 15⟩]
    scan text = .ok tokens ∧ Tiled 0 text.toList tokens := by
  have h : scan "a/* * */ //b\n=c" =
      .ok [⟨.ident "a", 0, 1⟩, ⟨.symbol .assign, 13, 14⟩, ⟨.ident "c", 14, 15⟩] := by rfl
  exact ⟨h, (scan_tiles_text h).1⟩

end ActorScript
