import ActorScript.Proofs.Printing.Tokens

/-! # Reading given tokens

What a reader gives on given tokens and which of them it leaves, as rules for the steps that
readers are made of.
-/

namespace ActorScript

namespace Reader

/-! ## Tokens ahead -/

def symbolAhead : List Token → Option Symbol
  | .symbol mark :: _ => some mark
  | _ => none

/-- Whether a generator in brackets and arguments stand in front of some tokens. -/
def generatorAhead (ts : List Token) : Bool :=
  isSymbol .lBracket ts.head? && isIdent ts[1]? && isSymbol .rBracket ts[2]? &&
    isSymbol .lParen ts[3]?

@[simp]
theorem isSymbol_head? (mark : Symbol) (ts : List Token) :
    isSymbol mark ts.head? = (symbolAhead ts == some mark) := by
  rcases ts with _ | ⟨t, rest⟩
  · rfl
  · cases t <;> rfl

/-! ## Rules -/

variable {α β : Type}

/-- On the tokens `input`, a reader gives a value as said and leaves the tokens `output`. -/
def Reads (x : Reader α) (input output : List Token) (P : α → Prop) : Prop :=
  ∀ c : Cursor, c.rest.map Lexed.token = input →
    ∃ a c', x.run.run c = (.ok a, c') ∧ c'.rest.map Lexed.token = output ∧ P a

namespace Reads

variable {x : Reader α} {f : α → Reader β} {P : α → Prop} {Q : β → Prop}
  {input middle output ts : List Token}

theorem pure {a : α} (h : P a) : Reads (Pure.pure a) ts ts P :=
  fun c hc => ⟨a, c, rfl, hc, h⟩

theorem bind (hx : Reads x input middle P) (hf : ∀ a, P a → Reads (f a) middle output Q) :
    Reads (x >>= f) input output Q := by
  intro c hc
  obtain ⟨a, c', hrun, hc', ha⟩ := hx c hc
  obtain ⟨b, c'', hrun', hc'', hb⟩ := hf a ha c' hc'
  refine ⟨b, c'', ?_, hc'', hb⟩
  change (ExceptT.bindCont f (x.run.run c).1).run (x.run.run c).2 = _
  rw [hrun]
  exact hrun'

theorem after (hx : Reads x input middle fun _ => True)
    (hf : ∀ a, Reads (f a) middle output Q) : Reads (x >>= f) input output Q :=
  hx.bind fun a _ => hf a

theorem given {a : α} (hx : Reads x input middle (· = a)) (hf : Reads (f a) middle output Q) :
    Reads (x >>= f) input output Q :=
  hx.bind fun _ ha => ha ▸ hf

theorem mono {P' : α → Prop} (hx : Reads x input output P) (h : ∀ a, P a → P' a) :
    Reads x input output P' := by
  intro c hc
  obtain ⟨a, c', hrun, hc', ha⟩ := hx c hc
  exact ⟨a, c', hrun, hc', h a ha⟩

end Reads

/-! ## Steps -/

section Steps

variable {ts : List Token}

theorem reads_peek : Reads peek ts ts (· = ts.head?) := by
  rintro c rfl
  exact ⟨_, c, rfl, rfl, by rw [List.head?_map]⟩

theorem reads_peekAt (n : Nat) : Reads (peekAt n) ts ts (· = ts[n]?) := by
  rintro c rfl
  exact ⟨_, c, rfl, rfl, by rw [List.getElem?_map]⟩

theorem reads_peekSpan : Reads peekSpan ts ts fun _ => True :=
  fun c hc => ⟨_, c, rfl, hc, trivial⟩

theorem reads_since (start : Span) : Reads (since start) ts ts fun _ => True :=
  fun c hc => ⟨_, c, rfl, hc, trivial⟩

theorem reads_advance (t : Token) : Reads advance (t :: ts) ts fun _ => True := by
  rintro ⟨rest, position, last, stop, errors⟩ hc
  cases rest with
  | nil => cases hc
  | cons l rest => exact ⟨(), _, rfl, (List.cons.inj hc).2, trivial⟩

theorem reads_peekSymbol : Reads peekSymbol ts ts (· = symbolAhead ts) := by
  refine reads_peek.given ?_
  rcases ts with _ | ⟨t, rest⟩
  · exact .pure rfl
  · cases t <;> exact .pure rfl

theorem reads_sees (mark : Symbol) : Reads (sees mark) ts ts (· = (symbolAhead ts == some mark)) :=
  reads_peek.given (.pure (isSymbol_head? mark ts))

theorem reads_eat (mark : Symbol) : Reads (eat mark) (.symbol mark :: ts) ts (· = true) := by
  refine (reads_sees mark).given ?_
  rw [symbolAhead, beq_self_eq_true]
  exact (reads_advance _).after fun _ => .pure rfl

theorem reads_eat_other {mark : Symbol} (h : symbolAhead ts ≠ some mark) :
    Reads (eat mark) ts ts (· = false) := by
  refine (reads_sees mark).given ?_
  rw [beq_eq_false_iff_ne.2 h]
  exact .pure rfl

theorem reads_expect (mark : Symbol) :
    Reads (expect mark) (.symbol mark :: ts) ts fun _ => True :=
  reads_peekSpan.after fun _ => (reads_eat mark).given (.pure trivial)

theorem reads_expectIdent (name : String) :
    Reads expectIdent (.ident name :: ts) ts (· = name) :=
  reads_peek.given ((reads_advance _).after fun _ => .pure rfl)

theorem reads_seesGenerator : Reads seesGenerator ts ts (· = generatorAhead ts) :=
  reads_peek.given ((reads_peekAt 1).given ((reads_peekAt 2).given ((reads_peekAt 3).given
    (.pure rfl))))

end Steps

end Reader

end ActorScript
