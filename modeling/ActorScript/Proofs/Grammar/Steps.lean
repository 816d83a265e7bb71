import ActorScript.Grammar.Statement
import Mathlib.Data.List.Basic

/-! # Steps of readers

How a reader moves along the tokens, whether it fails or not, and what it gives for the tokens
that it passed over. There is one rule for each step that readers are made of.
-/

namespace ActorScript

open Reader

variable {t : Lexed} {mark : Symbol} {token : Token} {word : Keyword}

/-! ## Moves of a cursor -/

@[simp]
theorem getLast?_cons_append (t c : Lexed) (ts : List Lexed) :
    (t :: (ts ++ [c])).getLast? = some c := by
  simp [List.getLast?_cons]

def braces (ts : List Lexed) : Nat :=
  ts.countP fun t => isSymbol .lBrace (some t.token)

/-- A cursor passed over some tokens. The faults recorded meanwhile are in order. If there are
any, there are now less than one for each opening brace above the limit, or `slack` more. One of too
deep a nesting is among them only if the budget was short. -/
structure Cursor.Moves (short : Prop) (slack : Nat) (c : Cursor) (ts : List Lexed) (c' : Cursor) :
    Prop where
  rest : c.rest = ts ++ c'.rest
  position : c'.position = c.position + ts.length
  last : c'.last = ts.getLast?.elim c.last Lexed.span
  stop : c'.stop = c.stop
  errors : ∃ new, c'.errors = c.errors ++ new ∧ new.Pairwise (·.position ≤ ·.position) ∧
    (∀ e ∈ new, c.position ≤ e.position ∧ e.position ≤ c'.position) ∧
    (new = [] ∨ c'.errors.length < maxSyntaxErrors + slack + braces ts)
  deep : ∀ e ∈ c'.errors, e ∈ c.errors ∨ (e.fault = .tooDeep → short)

namespace Cursor.Moves

variable {short short' : Prop} {slack slack' : Nat} {c c1 c2 : Cursor} {ts ts' : List Lexed}

theorem refl (c : Cursor) : c.Moves short slack [] c where
  rest := rfl
  position := rfl
  last := rfl
  stop := rfl
  errors := ⟨[], by simp⟩
  deep := fun _ => .inl

/-- Braces that are passed over in one part make up for the slack of the other one. -/
theorem join (h : c.Moves short slack ts c1) (h' : c1.Moves short slack' ts' c2) {slack'' : Nat}
    (hle : slack ≤ slack'' + braces ts') (hle' : slack' ≤ slack'' + braces ts) :
    c.Moves short slack'' (ts ++ ts') c2 where
  rest := by rw [h.rest, h'.rest, List.append_assoc]
  position := by rw [h'.position, h.position, List.length_append, Nat.add_assoc]
  last := by
    rw [h'.last, h.last, List.getLast?_append]
    cases ts'.getLast? <;> rfl
  stop := h'.stop.trans h.stop
  errors := by
    obtain ⟨new, herrors, hsorted, hwithin, hfew⟩ := h.errors
    obtain ⟨new', herrors', hsorted', hwithin', hfew'⟩ := h'.errors
    have hposition := h.position
    have hposition' := h'.position
    have hbraces : braces (ts ++ ts') = braces ts + braces ts' := List.countP_append ..
    refine ⟨new ++ new', by rw [herrors', herrors, List.append_assoc], ?_, ?_, ?_⟩
    · refine List.pairwise_append.2 ⟨hsorted, hsorted', fun e he e' he' => ?_⟩
      exact Nat.le_trans (hwithin e he).2 (hwithin' e' he').1
    · intro e he
      rcases List.mem_append.1 he with he | he
      · have := hwithin e he
        omega
      · have := hwithin' e he
        omega
    · rcases hfew' with rfl | hfew'
      · rw [List.append_nil] at herrors'
        rw [herrors', List.append_nil]
        exact hfew.imp_right fun hfew => by omega
      · exact .inr (by omega)
  deep := fun e he => (h'.deep e he).elim (h.deep e) .inr

theorem trans (h : c.Moves short slack ts c1) (h' : c1.Moves short slack ts' c2) :
    c.Moves short slack (ts ++ ts') c2 :=
  h.join h' (Nat.le_add_right _ _) (Nat.le_add_right _ _)

theorem mono (h : c.Moves short slack ts c1) (hle : slack ≤ slack') : c.Moves short slack' ts c1 := by
  obtain ⟨new, herrors, hsorted, hwithin, hfew⟩ := h.errors
  exact { h with errors := ⟨new, herrors, hsorted, hwithin, hfew.imp_right fun _ => by omega⟩ }

theorem weaken (h : c.Moves short slack ts c1) (himp : short → short') :
    c.Moves short' slack ts c1 :=
  { h with deep := fun e he => (h.deep e he).imp_right (himp ∘ ·) }

theorem record (h : c.Moves short 0 ts c1) {e : SyntaxError} (he : e.position = c1.position)
    (hdeep : e.fault = .tooDeep → short) (hfew : c.errors.length < maxSyntaxErrors) :
    c.Moves short 1 ts { c1 with errors := c1.errors ++ [e] } := by
  obtain ⟨new, herrors, hsorted, hwithin, hfew'⟩ := h.errors
  have hle := h.position
  refine { h with errors := ⟨new ++ [e], by simp [herrors], ?_, ?_, .inr ?_⟩, deep := ?_ }
  · refine List.pairwise_append.2 ⟨hsorted, by simp, fun e' he' _ hlast => ?_⟩
    rw [List.mem_singleton.1 hlast, he]
    exact (hwithin e' he').2
  · intro e' he'
    rcases List.mem_append.1 he' with he' | he'
    · exact hwithin e' he'
    · rw [List.mem_singleton.1 he', he]
      exact ⟨by omega, Nat.le_refl _⟩
  · rw [List.length_append, List.length_singleton]
    rcases hfew' with rfl | hfew'
    · rw [List.append_nil] at herrors
      rw [herrors]
      omega
    · omega
  · intro e' he'
    rcases List.mem_append.1 he' with he' | he'
    · exact h.deep e' he'
    · exact .inr (List.mem_singleton.1 he' ▸ hdeep)

theorem advance (c : Cursor) {rest : List Lexed} (h : c.rest = t :: rest) :
    c.Moves short slack [t] { c with rest, position := c.position + 1, last := t.span } where
  rest := h
  position := rfl
  last := rfl
  stop := rfl
  errors := ⟨[], by simp⟩
  deep := fun _ => .inl

theorem length_lt (h : c.Moves short slack ts c1) (hne : ts ≠ []) :
    c1.rest.length < c.rest.length := by
  have hpos := List.length_pos_iff.2 hne
  rw [h.rest, List.length_append]
  omega

end Cursor.Moves

/-! ## What readers reach -/

namespace Reader

variable {α β : Type} {short short' : Prop}

theorem run_bind (x : Reader α) (f : α → Reader β) (c : Cursor) :
    (x >>= f).run.run c = match x.run.run c with
      | (.ok a, c') => (f a).run.run c'
      | (.error e, c') => (.error e, c') := by
  change (ExceptT.bindCont f (x.run.run c).1).run (x.run.run c).2 = _
  rcases x.run.run c with ⟨e | a, c'⟩ <;> rfl

theorem run_bind_ok {x : Reader α} {c c' : Cursor} {a : α} (h : x.run.run c = (.ok a, c'))
    (f : α → Reader β) : (x >>= f).run.run c = (f a).run.run c' := by
  rw [run_bind, h]

/-- What a reader may end with. An error is at the token that the reader stopped at, and of too deep
a nesting only if the budget is short. -/
def Ends (short : Prop) (slack : Nat) (c : Cursor) (past : List Lexed)
    (Q : List Lexed → List Lexed → α → Prop) : Except SyntaxError α × Cursor → Prop
  | (.ok a, c') => ∃ ts, c.Moves short slack ts c' ∧ Q (past ++ ts) c'.rest a
  | (.error e, c') => ∃ ts, c.Moves short slack ts c' ∧ e.position = c'.position ∧
    (e.fault = .tooDeep → short)

/-- With the tokens `past` just passed over and `ahead` still to read, a reader ends with a value
as said of the tokens that are passed over and ahead then, or with an error. -/
def Reaches (short : Prop) (x : Reader α) (past ahead : List Lexed)
    (Q : List Lexed → List Lexed → α → Prop) : Prop :=
  ∀ c : Cursor, c.rest = ahead → (∀ t ∈ past.getLast?, c.last = t.span) →
    Ends short 0 c past Q (x.run.run c)

/-- What a reader gives for the tokens that it passes over, whatever the depth of their nesting. -/
def Brings (x : Reader α) (Q : List Lexed → List Lexed → α → Prop) : Prop :=
  ∀ ahead, Reaches False x [] ahead Q

/-- What a reader gives within a budget. It is short if it has not enough for the tokens ahead and
for the calls until the first of them is passed over. -/
def BringsWithin (budget calls : Nat) (x : Reader α) (Q : List Lexed → List Lexed → α → Prop) : Prop :=
  ∀ ahead, Reaches (budget < 16 * ahead.length + calls) x [] ahead Q

/-- What a reader that only looks ahead gives. -/
def Looks (x : Reader α) (ahead : List Lexed) (a : α) : Prop :=
  ∀ c : Cursor, c.rest = ahead → x.run.run c = (.ok a, c)

namespace Reaches

variable {x : Reader α} {f : α → Reader β} {past ahead : List Lexed}
  {P : List Lexed → List Lexed → α → Prop} {Q : List Lexed → List Lexed → β → Prop}

theorem pure {a : α} (h : P past ahead a) : Reaches short (Pure.pure a) past ahead P := by
  rintro c rfl -
  exact ⟨[], .refl c, by simpa using h⟩

theorem fail {fault : SyntaxFault} (h : fault = .tooDeep → short) :
    Reaches short (fail fault) past ahead P :=
  fun c _ _ => ⟨[], .refl c, rfl, h⟩

theorem unexpected {what : String} :
    Reaches short (do throw (← Reader.unexpected what)) past ahead P :=
  fun c _ _ => ⟨[], .refl c, rfl, by simp⟩

theorem bind (hx : Reaches short x past ahead P)
    (hf : ∀ past' ahead' a, P past' ahead' a → Reaches short (f a) past' ahead' Q) :
    Reaches short (x >>= f) past ahead Q := by
  intro c hrest hlast
  have hx := hx c hrest hlast
  rw [run_bind]
  generalize x.run.run c = outcome at hx ⊢
  rcases outcome with ⟨e | a, c1⟩
  · exact hx
  · obtain ⟨ts, hmoves, hP⟩ := hx
    have hlast1 : ∀ t ∈ (past ++ ts).getLast?, c1.last = t.span := by
      rw [hmoves.last, List.getLast?_append]
      cases ts.getLast? with
      | none => exact hlast
      | some t => simp
    have hf := hf _ _ a hP c1 rfl hlast1
    change Ends short 0 c past Q ((f a).run.run c1)
    generalize (f a).run.run c1 = outcome at hf ⊢
    rcases outcome with ⟨e | b, c2⟩
    · obtain ⟨ts', hmoves', he⟩ := hf
      exact ⟨ts ++ ts', hmoves.trans hmoves', he⟩
    · obtain ⟨ts', hmoves', hQ⟩ := hf
      exact ⟨ts ++ ts', hmoves.trans hmoves', by rwa [← List.append_assoc]⟩

theorem mono {P' : List Lexed → List Lexed → α → Prop} (hx : Reaches short x past ahead P)
    (h : ∀ past' ahead' a, P past' ahead' a → P' past' ahead' a) : Reaches short x past ahead P' := by
  intro c hrest hlast
  have hx := hx c hrest hlast
  generalize x.run.run c = outcome at hx ⊢
  rcases outcome with ⟨e | a, c'⟩
  · exact hx
  · obtain ⟨ts, hmoves, hP⟩ := hx
    exact ⟨ts, hmoves, h _ _ a hP⟩

theorem map (hx : Reaches short x past ahead P) (f : α → β) :
    Reaches short (f <$> x) past ahead fun ts rest b => ∃ a, b = f a ∧ P ts rest a := by
  rw [map_eq_pure_bind]
  exact hx.bind fun _ _ a ha => pure ⟨a, rfl, ha⟩

theorem weaken (hx : Reaches short' x past ahead P) (himp : short' → short) :
    Reaches short x past ahead P := by
  intro c hrest hlast
  have hx := hx c hrest hlast
  generalize x.run.run c = outcome at hx ⊢
  rcases outcome with ⟨e | a, c'⟩
  · obtain ⟨ts, hmoves, he, hdeep⟩ := hx
    exact ⟨ts, hmoves.weaken himp, he, himp ∘ hdeep⟩
  · obtain ⟨ts, hmoves, hP⟩ := hx
    exact ⟨ts, hmoves.weaken himp, hP⟩

/-- A reader of its own, whose tokens come behind those passed over before and are the first of
those ahead. -/
theorem readHere (hx : Reaches short' x [] ahead P) (himp : short' → short)
    (hf : ∀ ts rest a, ahead = ts ++ rest → P ts rest a → Reaches short (f a) (past ++ ts) rest Q) :
    Reaches short (x >>= f) past ahead Q := by
  refine bind (P := fun past' rest a =>
    ∃ ts, past' = past ++ ts ∧ ahead = ts ++ rest ∧ P ts rest a) ?_ ?_
  · rintro c rfl -
    have hx := hx.weaken himp c rfl (by simp)
    generalize x.run.run c = outcome at hx ⊢
    rcases outcome with ⟨e | a, c'⟩
    · exact hx
    · obtain ⟨ts, hmoves, hP⟩ := hx
      exact ⟨ts, hmoves, ts, rfl, hmoves.rest, hP⟩
  · rintro _ rest a ⟨ts, rfl, hahead, hP⟩
    exact hf ts rest a hahead hP

theorem readWithin {n k : Nat} (hx : BringsWithin n k x P) (himp : n < 16 * ahead.length + k → short)
    (hf : ∀ ts rest a, rest.length ≤ ahead.length → P ts rest a →
      Reaches short (f a) (past ++ ts) rest Q) : Reaches short (x >>= f) past ahead Q :=
  readHere (hx ahead) himp fun ts rest a hahead => hf ts rest a (by simp [hahead])

theorem readAhead (hx : Brings x P)
    (hf : ∀ ts rest a, ahead = ts ++ rest → P ts rest a → Reaches short (f a) (past ++ ts) rest Q) :
    Reaches short (x >>= f) past ahead Q :=
  readHere (hx ahead) False.elim hf

theorem read (hx : Brings x P)
    (hf : ∀ ts rest a, P ts rest a → Reaches short (f a) (past ++ ts) rest Q) :
    Reaches short (x >>= f) past ahead Q :=
  readAhead hx fun ts rest a _ => hf ts rest a

theorem look {a : α} (hx : Looks x ahead a) (hf : Reaches short (f a) past ahead Q) :
    Reaches short (x >>= f) past ahead Q := by
  intro c hrest hlast
  rw [run_bind, hx c hrest]
  exact hf c hrest hlast

theorem peekSpan {f : Span → Reader β}
    (hf : ∀ span, (∀ t ∈ ahead.head?, span = t.span) → Reaches short (f span) past ahead Q) :
    Reaches short (Reader.peekSpan >>= f) past ahead Q := by
  rintro c rfl hlast
  refine hf _ (fun t ht => ?_) c rfl hlast
  rcases hrest : c.rest with _ | ⟨t', rest⟩
  · simp [hrest] at ht
  · rw [hrest] at ht
    exact congrArg Lexed.span (Option.some.inj ht)

theorem since {f : Span → Reader β} {start : Span} (ht : t ∈ past.getLast?)
    (hf : Reaches short (f (start.merge t.span)) past ahead Q) :
    Reaches short (Reader.since start >>= f) past ahead Q := by
  intro c hrest hlast
  rw [← hlast t ht] at hf
  exact hf c hrest hlast

theorem advance {f : Unit → Reader β} (hf : Reaches short (f ()) (past ++ [t]) ahead Q) :
    Reaches short (Reader.advance >>= f) past (t :: ahead) Q := by
  refine bind (P := fun past' rest _ => past' = past ++ [t] ∧ rest = ahead) ?_ ?_
  · rintro ⟨_, position, last, stop, errors⟩ rfl -
    exact ⟨[t], .advance _ rfl, rfl, rfl⟩
  · rintro _ _ _ ⟨rfl, rfl⟩
    exact hf

end Reaches

/-! ## Looking ahead -/

section Looks

variable {ahead : List Lexed}

theorem looks_peek : Looks peek ahead (ahead.head?.map Lexed.token) := by
  rintro c rfl
  rfl

theorem looks_peekAt (n : Nat) : Looks (peekAt n) ahead (ahead[n]?.map Lexed.token) := by
  rintro c rfl
  rfl

theorem looks_sees (mark : Symbol) :
    Looks (sees mark) ahead (isSymbol mark (ahead.head?.map Lexed.token)) := by
  rintro c rfl
  rfl

theorem token_of_isSymbol (h : isSymbol mark (some token) = true) : token = .symbol mark := by
  cases token with
  | symbol mark' => exact congrArg Token.symbol (eq_of_beq h)
  | _ => cases h

theorem token_of_isKeyword (h : isKeyword word (some token) = true) : token = .keyword word := by
  cases token with
  | keyword word' => exact congrArg Token.keyword (eq_of_beq h)
  | _ => cases h

end Looks

/-! ## Symbols and words -/

namespace Reaches

variable {past ahead : List Lexed} {Q : List Lexed → List Lexed → β → Prop}

theorem test {x : Reader Bool} {p : Option Token → Bool} {f : Bool → Reader β}
    (hx : x = do
      if p (← peek) then
        Reader.advance
        return true
      else return false) (hnone : p none = false)
    (hyes : ∀ t rest, p (some t.token) = true → ahead = t :: rest →
      Reaches short (f true) (past ++ [t]) rest Q)
    (hno : Reaches short (f false) past ahead Q) : Reaches short (x >>= f) past ahead Q := by
  rw [hx, bind_assoc]
  refine .look looks_peek ?_
  split
  next h =>
    rcases ahead with _ | ⟨t, rest⟩
    · simp [hnone] at h
    · rw [bind_assoc]
      refine .advance ?_
      rw [pure_bind]
      exact hyes t rest h rfl
  next => exact hno

theorem eat {f : Bool → Reader β}
    (hyes : ∀ t rest, t.token = .symbol mark → ahead = t :: rest →
      Reaches short (f true) (past ++ [t]) rest Q)
    (hno : Reaches short (f false) past ahead Q) :
    Reaches short (Reader.eat mark >>= f) past ahead Q :=
  test (by rw [Reader.eat, sees, bind_assoc]; simp only [pure_bind]) rfl
    (fun t rest h => hyes t rest (token_of_isSymbol h)) hno

theorem eatKeyword {f : Bool → Reader β}
    (hyes : ∀ t rest, t.token = .keyword word → ahead = t :: rest →
      Reaches short (f true) (past ++ [t]) rest Q)
    (hno : Reaches short (f false) past ahead Q) :
    Reaches short (Reader.eatKeyword word >>= f) past ahead Q :=
  test rfl rfl (fun t rest h => hyes t rest (token_of_isKeyword h)) hno

theorem expect {f : Span → Reader β}
    (hf : ∀ t rest, t.token = .symbol mark → ahead = t :: rest →
      Reaches short (f t.span) (past ++ [t]) rest Q) :
    Reaches short (Reader.expect mark >>= f) past ahead Q := by
  rw [Reader.expect, bind_assoc]
  refine .peekSpan fun span hspan => ?_
  rw [bind_assoc]
  refine .eat (fun t rest ht hahead => ?_) (.bind unexpected fun _ _ _ => False.elim)
  rw [hspan t (by rw [hahead]; rfl)]
  exact hf t rest ht hahead

theorem expectKeyword {f : Span → Reader β}
    (hf : ∀ t rest, t.token = .keyword word → ahead = t :: rest →
      Reaches short (f t.span) (past ++ [t]) rest Q) :
    Reaches short (Reader.expectKeyword word >>= f) past ahead Q := by
  rw [Reader.expectKeyword, bind_assoc]
  refine .peekSpan fun span hspan => ?_
  rw [bind_assoc]
  refine .eatKeyword (fun t rest ht hahead => ?_) (.bind unexpected fun _ _ _ => False.elim)
  rw [hspan t (by rw [hahead]; rfl)]
  exact hf t rest ht hahead

theorem expectIdent {f : String → Reader β}
    (hf : ∀ t rest name, t.token = .ident name → ahead = t :: rest →
      Reaches short (f name) (past ++ [t]) rest Q) :
    Reaches short (Reader.expectIdent >>= f) past ahead Q := by
  rw [Reader.expectIdent, bind_assoc]
  refine .look looks_peek ?_
  split
  next name h =>
    obtain ⟨t, ht, htoken⟩ := Option.map_eq_some_iff.1 h
    obtain ⟨rest, rfl⟩ := List.head?_eq_some_iff.1 ht
    rw [bind_assoc]
    exact .advance (by simpa using hf t rest name htoken rfl)
  next => exact .bind unexpected fun _ _ _ => False.elim

theorem typeName {f : String → Reader β}
    (hclass : ∀ t o n c rest name, t.token = .keyword .classWord → n.token = .ident name →
      ahead = t :: o :: n :: c :: rest →
      Reaches short (f ("class<" ++ name ++ ">")) (past ++ [t, o, n, c]) rest Q)
    (hplain : ∀ t rest name, t.token = .ident name → ahead = t :: rest →
      Reaches short (f name) (past ++ [t]) rest Q) :
    Reaches short (Reader.typeName >>= f) past ahead Q := by
  rw [Reader.typeName, bind_assoc]
  refine .eatKeyword (fun t _ ht hahead => ?_) (.expectIdent hplain)
  rw [if_pos rfl, bind_assoc]
  refine .expect fun o _ _ hrest => ?_
  rw [bind_assoc]
  refine .expectIdent fun n _ name hn hrest' => ?_
  rw [bind_assoc]
  refine .expect fun c rest _ hrest'' => ?_
  subst hahead hrest hrest' hrest''
  simpa using hclass t o n c rest name ht hn rfl

end Reaches

end Reader

end ActorScript
