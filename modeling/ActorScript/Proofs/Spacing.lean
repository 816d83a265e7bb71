import ActorScript.Proofs.Readings

/-! # Blanks between tokens

The stretches between tokens can be kept or replaced by any blanks, each by itself, and the tokens
stay the same.
-/

namespace ActorScript

open Scan Text

variable {offset : Nat} {cs cs' own gap gap' rest rest' tail : List Char} {t : Lexed}
  {ts : List Lexed} {c : Char}

/-! ## Steps of a scan -/

theorem scanFrom_skip (offset skip : Nat) (cs : List Char) :
    scanFrom offset skip cs = scanFrom (offset + byteCount (cs.take skip)) 0 (cs.drop skip) := by
  induction cs generalizing offset skip with
  | nil => simp [scanFrom]
  | cons c tail ih =>
    cases skip with
    | zero => simp
    | succ skip => simp [scanFrom, ih (offset + charBytes c), Nat.add_assoc]

theorem scanFrom_gap (h : (reading c tail).lexeme = .gap) (offset : Nat) :
    scanFrom offset 0 (c :: tail) =
      scanFrom (offset + byteCount (c :: tail.take (reading c tail).more)) 0
        (tail.drop (reading c tail).more) := by
  simp only [scanFrom, h]
  rw [scanFrom_skip, byteCount_cons, Nat.add_assoc]

theorem scanFrom_token {token : Token} (h : (reading c tail).lexeme = .token token) (offset : Nat) :
    scanFrom offset 0 (c :: tail) =
      (scanFrom (offset + byteCount (c :: tail.take (reading c tail).more)) 0
        (tail.drop (reading c tail).more)).map
        (⟨token, offset, offset + byteCount (c :: tail.take (reading c tail).more)⟩ :: ·) := by
  simp only [scanFrom, h]
  rw [scanFrom_skip, byteCount_cons, Nat.add_assoc]
  rfl

theorem map_cons_eq_ok {x : Except ScanError (List Lexed)} :
    x.map (t :: ·) = .ok ts ↔ ∃ rest, x = .ok rest ∧ ts = t :: rest := by
  cases x <;> simp [Except.map, eq_comm]

theorem scanFrom_cases (h : scanFrom offset 0 (c :: tail) = .ok ts) :
    ((reading c tail).lexeme = .gap ∧
      scanFrom (offset + byteCount (c :: tail.take (reading c tail).more)) 0
        (tail.drop (reading c tail).more) = .ok ts) ∨
    ∃ t rest, ts = t :: rest ∧ (reading c tail).lexeme = .token t.token ∧ t.span.start = offset ∧
      t.span.stop = offset + byteCount (c :: tail.take (reading c tail).more) ∧
      scanFrom t.span.stop 0 (tail.drop (reading c tail).more) = .ok rest := by
  cases hlexeme : (reading c tail).lexeme with
  | fault => simp [scanFrom, hlexeme] at h
  | gap => exact .inl ⟨rfl, (scanFrom_gap hlexeme offset).symm.trans h⟩
  | token token =>
    rw [scanFrom_token hlexeme, map_cons_eq_ok] at h
    obtain ⟨rest, hrest, rfl⟩ := h
    exact .inr ⟨_, rest, rfl, rfl, rfl, rfl, hrest⟩

/-- Tokens do not depend on where the text begins. -/
theorem scanFrom_moved {skip : Nat} (h : scanFrom offset skip cs = .ok ts) (offset' : Nat) :
    ∃ ts', scanFrom offset' skip cs = .ok ts' ∧ ts'.map Lexed.token = ts.map Lexed.token := by
  induction cs generalizing offset offset' skip ts with
  | nil =>
    cases h
    exact ⟨[], rfl, rfl⟩
  | cons c tail ih =>
    cases skip with
    | succ skip => exact ih h _
    | zero =>
      simp only [scanFrom] at h ⊢
      split at h
      · cases h
      · exact ih h _
      next token htoken =>
        obtain ⟨rest, hrest, rfl⟩ := map_cons_eq_ok.1 h
        obtain ⟨rest', hrest', hsame⟩ := ih hrest (offset' + charBytes c)
        rw [hrest']
        exact ⟨_, rfl, by simp [hsame]⟩

/-- What is scanned behind a position begins behind it. -/
theorem le_start_of_scanFrom (h : scanFrom offset 0 cs = .ok (t :: ts)) : offset ≤ t.span.start := by
  simpa using (tiled_of_scanFrom h).ordered.2 t (by simp)

/-- Of two beginnings of a text the one with fewer bytes is the shorter one. -/
theorem prefix_of_byteCount_le {a b : List Char} (ha : a <+: cs) (hb : b <+: cs)
    (h : byteCount a ≤ byteCount b) : a <+: b := by
  rcases List.prefix_or_prefix_of_prefix ha hb with hab | ⟨more, rfl⟩
  · exact hab
  · rw [byteCount_append] at h
    have hmore : more = [] := by
      by_contra hne
      have := byteCount_pos hne
      omega
    simp [hmore]

theorem token_of_scanFrom (h : scanFrom t.span.start 0 (c :: (own ++ rest)) = .ok (t :: ts))
    (hstop : t.span.start + byteCount (c :: own) = t.span.stop) :
    (reading c (own ++ rest)).lexeme = .token t.token ∧
      (reading c (own ++ rest)).more = own.length ∧ scanFrom t.span.stop 0 rest = .ok ts := by
  rcases scanFrom_cases h with ⟨-, hrest⟩ | ⟨_, _, ⟨⟩, htoken, -, hend, hrest⟩
  · have hbehind := le_start_of_scanFrom hrest
    have := byteCount_pos (List.cons_ne_nil c ((own ++ rest).take (reading c (own ++ rest)).more))
    omega
  · have hmem : reading c (own ++ rest) ∈ readings c (own ++ rest) :=
      reading_mem (by rw [htoken]; exact Lexeme.noConfusion)
    generalize reading c (own ++ rest) = r at *
    have hread : c :: (own ++ rest).take r.more <+: c :: (own ++ rest) :=
      List.cons_prefix_cons.2 ⟨rfl, List.take_prefix r.more _⟩
    have hown : c :: own <+: c :: (own ++ rest) := List.prefix_append (c :: own) rest
    have hle := (prefix_of_byteCount_le hread hown (by omega)).length_le
    have hge := (prefix_of_byteCount_le hown hread (by omega)).length_le
    have hlen : ((own ++ rest).take r.more).length = r.more := by
      rw [List.length_take, Nat.min_eq_left (more_le_length hmem)]
    have hmore : r.more = own.length := by
      rw [List.length_cons, List.length_cons, hlen] at hle hge
      omega
    rw [hmore, List.drop_left] at hrest
    exact ⟨htoken, hmore, hrest⟩

/-! ## Replacing gaps -/

/-- A text from an offset on with its tokens, and another one in which each of the stretches between
the tokens is as before or blank. -/
inductive Respaced : Nat → List Char → List Lexed → List Char → Prop
  | last {offset : Nat} {gap gap' : List Char} :
      gap' = gap ∨ (∀ c ∈ gap', isGapChar c = true) → Respaced offset gap [] gap'
  | token {offset : Nat} {gap gap' own rest rest' : List Char} {t : Lexed} {ts : List Lexed} :
      offset + byteCount gap = t.span.start → t.span.start + byteCount own = t.span.stop →
      gap' = gap ∨ (gap' ≠ [] ∧ ∀ c ∈ gap', isGapChar c = true) →
      Respaced t.span.stop rest ts rest' →
      Respaced offset (gap ++ (own ++ rest)) (t :: ts) (gap' ++ (own ++ rest'))

theorem infix_of_blanks (hgap : ∀ c ∈ gap, isGapChar c = true)
    (h : ['*', '/'] <:+: gap ++ rest) : ['*', '/'] <:+: rest := by
  induction gap with
  | nil => exact h
  | cons b gap ih =>
    rcases List.infix_cons_iff.1 h with hstart | hin
    · obtain ⟨rfl, -⟩ := List.cons_prefix_cons.1 hstart
      cases hgap '*' (by simp)
    · exact ih (fun c hc => hgap c (by simp [hc])) hin

theorem Respaced.agree (h : Respaced offset cs ts cs') : Agree cs cs' := by
  induction h with
  | @last _ gap gap' hgap =>
    rcases hgap with rfl | hblank
    · exact ⟨gap', [], [], by simp, by simp, by simp [Breaks], id⟩
    · refine ⟨[], gap, gap', rfl, rfl, fun b hb => hblank b (List.mem_of_mem_head? hb), fun hin => ?_⟩
      have hnil : ['*', '/'] <:+: [] := infix_of_blanks hblank (by simpa using hin)
      simp at hnil
  | @token _ gap gap' own rest rest' _ _ _ _ hgap _ ih =>
    rcases hgap with rfl | ⟨hne, hblank⟩
    · exact (ih.append own).append _
    · refine ⟨[], gap ++ (own ++ rest), gap' ++ (own ++ rest'), rfl, rfl, fun b hb => ?_, fun hin => ?_⟩
      · rw [List.head?_append, Option.or_of_isSome (by simpa)] at hb
        exact hblank b (List.mem_of_mem_head? hb)
      · exact ((ih.append own).closes (infix_of_blanks hblank hin)).trans
          (List.suffix_append gap _).isInfix

/-- Blanks in front of something else are passed over. -/
theorem scanFrom_blanks (hgap : ∀ c ∈ gap, isGapChar c = true)
    (hrest : ∀ c ∈ rest.head?, isGapChar c = false) (offset : Nat) :
    scanFrom offset 0 (gap ++ rest) = scanFrom (offset + byteCount gap) 0 rest := by
  cases gap with
  | nil => rfl
  | cons b gap =>
    obtain ⟨hb, hgap⟩ := List.forall_mem_cons.1 hgap
    have hrun : (gap ++ rest).takeWhile isGapChar = gap := by
      rw [List.takeWhile_append_of_pos hgap]
      cases rest with
      | nil => simp
      | cons c rest => simp [hrest c rfl]
    have hreading : reading b (gap ++ rest) = _ := reading_of_gapChar hb
    rw [hrun] at hreading
    rw [List.cons_append, scanFrom_gap (by rw [hreading]), hreading, List.take_left, List.drop_left]

/-- A gap in front of a token is passed over, also if the text behind the token is another one that
agrees with it. -/
theorem scanFrom_kept (hagree : Agree rest rest') (hown : own ≠ [])
    (h : scanFrom offset 0 (gap ++ (own ++ rest)) = .ok (t :: ts))
    (hstart : offset + byteCount gap = t.span.start) :
    scanFrom t.span.start 0 (own ++ rest) = .ok (t :: ts) ∧ ∀ offset',
      scanFrom offset' 0 (gap ++ (own ++ rest')) =
        scanFrom (offset' + byteCount gap) 0 (own ++ rest') := by
  -- Every reading is a part of the gap, so the induction is on the length of what is left of it.
  induction hlen : gap.length using Nat.strong_induction_on generalizing gap offset with
  | _ n ih =>
  cases gap with
  | nil => exact ⟨by simpa [← hstart] using h, fun _ => rfl⟩
  | cons c gap =>
    rw [List.cons_append] at h
    rcases scanFrom_cases h with ⟨hgap, hrest⟩ | ⟨_, _, ⟨⟩, -, hfirst, -⟩
    · have hmem : reading c (gap ++ (own ++ rest)) ∈ readings c (gap ++ (own ++ rest)) :=
        reading_mem (by simp [hgap])
      have hbehind := le_start_of_scanFrom hrest
      have hsame := reading_of_agree_gap (c := c) (a := gap ++ own) hagree
      rw [List.append_assoc, List.append_assoc] at hsame
      generalize hr : reading c (gap ++ (own ++ rest)) = r at *
      have hfits : r.more ≤ gap.length := by
        have hpre := prefix_of_byteCount_le
          (List.cons_prefix_cons.2 ⟨rfl, List.take_prefix r.more (gap ++ (own ++ rest))⟩)
          (List.prefix_append (c :: gap) _) (by omega)
        have hle := (List.cons_prefix_cons.1 hpre).2.length_le
        rwa [List.length_take, Nat.min_eq_left (more_le_length hmem)] at hle
      rw [List.take_append_of_le_length hfits, List.drop_append_of_le_length hfits] at hrest
      have hbytes : byteCount (c :: gap.take r.more) + byteCount (gap.drop r.more) =
          byteCount (c :: gap) := by
        rw [← byteCount_append, List.cons_append, List.take_append_drop]
      obtain ⟨hold, hnew⟩ := ih _
        (by simp only [← hlen, List.length_cons, List.length_drop]; omega) hrest (by omega) rfl
      refine ⟨hold, fun offset' => ?_⟩
      have hsame := hsame hgap (by
        have := List.length_pos_iff.2 hown
        rw [List.length_append]
        omega)
      rw [List.cons_append, scanFrom_gap (by rw [hsame, hgap]), hsame,
        List.take_append_of_le_length hfits, List.drop_append_of_le_length hfits, hnew,
        Nat.add_assoc, hbytes]
    · have hpos := byteCount_pos (List.cons_ne_nil c gap)
      omega

/-! ## Texts with other gaps -/

theorem Respaced.scanFrom_eq (h : Respaced offset cs ts cs') (hscan : scanFrom offset 0 cs = .ok ts)
    (offset' : Nat) :
    ∃ ts', scanFrom offset' 0 cs' = .ok ts' ∧ ts'.map Lexed.token = ts.map Lexed.token := by
  induction h generalizing offset' with
  | @last _ gap gap' hgap =>
    rcases hgap with rfl | hblank
    · exact scanFrom_moved hscan offset'
    · refine ⟨[], ?_, rfl⟩
      rw [← List.append_nil gap', scanFrom_blanks hblank (by simp)]
      rfl
  | @token offset gap gap' own rest rest' t ts hstart hstop hgap hrest ih =>
    have hown : own ≠ [] := by
      rintro rfl
      have := (tiled_of_scanFrom hscan).ordered.1.filled t (by simp)
      simp at hstop
      omega
    obtain ⟨hscan, hkept⟩ := scanFrom_kept hrest.agree hown hscan hstart
    obtain ⟨c, own, rfl⟩ := List.exists_cons_of_ne_nil hown
    obtain ⟨htoken, hmore, hbehind⟩ := token_of_scanFrom hscan hstop
    have hsame := reading_of_agree hrest.agree htoken hmore.le
    have hbytes (offset : Nat) : scanFrom offset 0 (c :: own ++ rest') =
        (scanFrom (offset + byteCount (c :: own)) 0 rest').map
          (⟨t.token, offset, offset + byteCount (c :: own)⟩ :: ·) := by
      rw [List.cons_append, scanFrom_token (hsame ▸ htoken), hsame, hmore, List.take_left,
        List.drop_left]
    have hgap : scanFrom offset' 0 (gap' ++ (c :: own ++ rest')) =
        scanFrom (offset' + byteCount gap') 0 (c :: own ++ rest') := by
      rcases hgap with rfl | ⟨-, hblank⟩
      · exact hkept offset'
      · exact scanFrom_blanks hblank (by simpa using not_isGapChar_of_token htoken) offset'
    obtain ⟨ts', hts', htokens⟩ := ih hbehind (offset' + byteCount gap' + byteCount (c :: own))
    rw [hgap, hbytes, hts']
    exact ⟨_, rfl, by simp [htokens]⟩

/-- The tokens stay the same if every stretch between them is kept or replaced by blanks, at least
one between two tokens. -/
theorem scan_respaced {text text' : String} {tokens : List Lexed} (h : scan text = .ok tokens)
    (hrespaced : Respaced 0 text.toList tokens text'.toList) :
    ∃ tokens', scan text' = .ok tokens' ∧ tokens'.map Lexed.token = tokens.map Lexed.token :=
  hrespaced.scanFrom_eq h 0

/-- A number behind which an exponent could go on, and a comment that is kept. -/
theorem exponent_respaced : ∃ tokens, scan "1 e\n+/**/2\t" = .ok tokens ∧
    tokens.map Lexed.token = [.int 1, .ident "e", .symbol .plus, .int 2] := by
  have hscan : scan "1e+/**/2" =
      .ok [⟨.int 1, 0, 1⟩, ⟨.ident "e", 1, 2⟩, ⟨.symbol .plus, 2, 3⟩, ⟨.int 2, 7, 8⟩] := by rfl
  have hrespaced : Respaced 0
      ([] ++ (['1'] ++ ([] ++ (['e'] ++ ([] ++ (['+'] ++ ("/**/".toList ++ (['2'] ++ []))))))))
      [⟨.int 1, 0, 1⟩, ⟨.ident "e", 1, 2⟩, ⟨.symbol .plus, 2, 3⟩, ⟨.int 2, 7, 8⟩]
      ([] ++ (['1'] ++ ([' '] ++ (['e'] ++
        (['\n'] ++ (['+'] ++ ("/**/".toList ++ (['2'] ++ ['\t'])))))))) :=
    .token rfl rfl (.inl rfl) (.token rfl rfl (.inr ⟨by simp, List.forall_mem_singleton.2 rfl⟩)
      (.token rfl rfl (.inr ⟨by simp, List.forall_mem_singleton.2 rfl⟩)
        (.token rfl rfl (.inl rfl) (.last (.inr (List.forall_mem_singleton.2 rfl))))))
  exact scan_respaced hscan hrespaced

end ActorScript
