import ActorScript.Proofs.Grammar.Steps
import ActorScript.Proofs.Printing.Reading

/-! # Phrases

The trees that the grammar gives, each with the tokens that it is read from. The readers give no
other trees.
-/

namespace ActorScript

open Reader

variable {short : Prop} {ts ahead : List Lexed} {e : Expr}

/-! ## Trees and their tokens -/

/-- Stretches of tokens with a comma between each two. -/
inductive Joined : List (List Lexed) → List Lexed → Prop
  | nil : Joined [] []
  | one {ts : List Lexed} : Joined [ts] ts
  | more {t : Lexed} {ts ts' rest : List Lexed} {parts : List (List Lexed)} :
      Joined (ts' :: parts) rest → Joined (ts :: ts' :: parts) (ts ++ t :: rest)

/-- A tree that was read from some tokens in a place, the loosest place being that of a whole
expression. -/
inductive Phrase : Nat → List Lexed → Expr → Prop
  | looser {place place' : Nat} {ts : List Lexed} {e : Expr} :
      place ≤ place' → Phrase place' ts e → Phrase place ts e
  | constant {t : Lexed} {value : Constant} :
      value.Literal → Phrase 13 [t] (.ofConstant t.span value)
  | selfRef {t : Lexed} : Phrase 13 [t] (.selfRef { span := t.span })
  | identifier {t : Lexed} {name : String} : Phrase 13 [t] (.identifier { span := t.span } name)
  | parens {o c : Lexed} {ts : List Lexed} {e : Expr} :
      Phrase 0 ts e → Phrase 13 (o :: (ts ++ [c])) (e.withSpan (o.span.merge c.span))
  | call {t o c : Lexed} {inner : List Lexed} {name : String}
      {parts : List (List Lexed × Expr)} :
      isCastType name = false → Joined (parts.map Prod.fst) inner →
      (∀ p ∈ parts, Phrase 0 p.1 p.2) → Phrase 13 (t :: o :: (inner ++ [c]))
        (.call { span := t.span.merge c.span } name none (parts.map Prod.snd))
  | callWith {t o' r c' o c : Lexed} {inner : List Lexed} {name rng : String}
      {parts : List (List Lexed × Expr)} :
      Joined (parts.map Prod.fst) inner → (∀ p ∈ parts, Phrase 0 p.1 p.2) →
      Phrase 13 (t :: o' :: r :: c' :: o :: (inner ++ [c]))
        (.call { span := t.span.merge c.span } name (some rng) (parts.map Prod.snd))
  | cast {t o c : Lexed} {ts : List Lexed} {target : String} {e : Expr} :
      target ∈ castTypes → Phrase 0 ts e → Phrase 13 (t :: o :: (ts ++ [c]))
        (.explicitCast { span := t.span.merge c.span } e target)
  | classCast {t o' n c' o c : Lexed} {ts : List Lexed} {name : String} {e : Expr} :
      Phrase 0 ts e → Phrase 13 (t :: o' :: n :: c' :: o :: (ts ++ [c]))
        (.explicitCast { span := t.span.merge c.span } e ("class<" ++ name ++ ">"))
  | member {d n : Lexed} {ts : List Lexed} {name : String} {e : Expr} :
      Phrase 13 ts e → Phrase 13 (ts ++ [d, n]) (.member { span := e.span.merge n.span } e name)
  | memberCall {d n o c : Lexed} {ts inner : List Lexed} {name : String} {e : Expr}
      {parts : List (List Lexed × Expr)} :
      Phrase 13 ts e → Joined (parts.map Prod.fst) inner → (∀ p ∈ parts, Phrase 0 p.1 p.2) →
      Phrase 13 (ts ++ d :: n :: o :: (inner ++ [c]))
        (.memberCall { span := e.span.merge c.span } e name (parts.map Prod.snd))
  | element {o c : Lexed} {ts ts' : List Lexed} {e index : Expr} :
      Phrase 13 ts e → Phrase 0 ts' index → Phrase 13 (ts ++ o :: (ts' ++ [c]))
        (.element { span := e.span.merge c.span } e index)
  | stepAfter {t : Lexed} {ts : List Lexed} {op : StepOp} {e : Expr} :
      Phrase 13 ts e → Phrase 13 (ts ++ [t]) (.step { span := e.span.merge t.span } op false e)
  | raised {t : Lexed} {ts ts' : List Lexed} {l r : Expr} :
      Phrase 13 ts l → Phrase 12 ts' r →
      Phrase 12 (ts ++ t :: ts') (.binary { span := l.span.merge r.span } .pow l r)
  | unary {t : Lexed} {ts : List Lexed} {op : UnaryOp} {e : Expr} :
      Phrase 12 ts e → Phrase 12 (t :: ts) (.unary { span := t.span.merge e.span } op e)
  | stepBefore {t : Lexed} {ts : List Lexed} {op : StepOp} {e : Expr} :
      Phrase 12 ts e → Phrase 12 (t :: ts) (.step { span := t.span.merge e.span } op true e)
  | storage {t o c : Lexed} {ts : List Lexed} {op : StorageOp} {e : Expr} :
      Phrase 0 ts e →
      Phrase 12 (t :: o :: (ts ++ [c])) (.storage { span := t.span.merge c.span } op e)
  | joined {t : Lexed} {mark : Symbol} {p : Nat} {op : InfixOp} {ts ts' : List Lexed}
      {l r : Expr} :
      infixOp? mark = some (p, op) → Phrase (p + 1) ts l → Phrase (p + 2) ts' r →
      Phrase (p + 1) (ts ++ t :: ts') (op.apply l r)
  | conditional {t t' : Lexed} {ts ts' ts'' : List Lexed} {cond whenTrue whenFalse : Expr} :
      Phrase 2 ts cond → Phrase 0 ts' whenTrue → Phrase 1 ts'' whenFalse →
      Phrase 1 (ts ++ t :: (ts' ++ t' :: ts''))
        (.conditional { span := cond.span.merge whenFalse.span } cond whenTrue whenFalse)
  | assigned {t : Lexed} {mark : Symbol} {op : Option BinOp} {ts ts' : List Lexed} {l r : Expr} :
      assignOp? mark = some op → Phrase 1 ts l → Phrase 0 ts' r →
      Phrase 0 (ts ++ t :: ts') (assignment op t.span l r)

namespace Expr

theorem withSpan_span (e : Expr) : e.withSpan e.span = e := by
  cases e <;> rfl

theorem withSpan_withSpan (e : Expr) (span span' : Span) :
    (e.withSpan span).withSpan span' = e.withSpan span' := by
  cases e <;> rfl

/-- The tree needs no assignment around it that says what its first operand stands for. -/
def isWhole : Expr → Bool
  | assigned _ => false
  | binary _ _ (assigned _) _ => false
  | _ => true

theorem isWhole_withSpan (e : Expr) (span : Span) : (e.withSpan span).isWhole = e.isWhole := by
  cases e with
  | binary m op left right => cases left <;> rfl
  | _ => rfl

theorem isWhole_binary {left : Expr} (h : left.isWhole = true) (m : Mark) (op : BinOp)
    (right : Expr) : (binary m op left right).isWhole = true := by
  cases left with
  | assigned => cases h
  | _ => rfl

end Expr

theorem Phrase.isWhole {place : Nat} (h : Phrase place ts e) : e.isWhole = true := by
  induction h with
  | looser _ _ ih => exact ih
  | parens _ ih => exact (Expr.isWhole_withSpan _ _).trans ih
  | raised _ _ ihl => exact Expr.isWhole_binary ihl _ _ _
  | @joined _ _ _ op _ _ _ _ _ _ _ ihl =>
    cases op with
    | plain op => exact Expr.isWhole_binary ihl _ _ _
    | logical op => rfl
  | @assigned _ _ op => cases op <;> rfl
  | _ => rfl

/-- Trees that were read as arguments. -/
def ReadArguments (ts : List Lexed) (es : List Expr) : Prop :=
  ∃ parts : List (List Lexed × Expr), es = parts.map Prod.snd ∧ Joined (parts.map Prod.fst) ts ∧
    ∀ p ∈ parts, Phrase 0 p.1 p.2

/-- What was read stands between two more tokens. -/
def Enclosed (P : List Lexed → Prop) (ts : List Lexed) : Prop :=
  ∃ o c inner, ts = o :: (inner ++ [c]) ∧ P inner

/-! ## What the readers give -/

namespace Reader

/-- No operator that binds tighter than `power` is ahead. -/
def LooserAhead (power : Nat) (ahead : List Lexed) : Prop :=
  ∀ p op, (symbolAhead (ahead.map Lexed.token)).bind infixOp? = some (p, op) → p ≤ power

theorem looks_peekSymbol : Looks peekSymbol ahead (symbolAhead (ahead.map Lexed.token)) := by
  rintro ⟨_ | ⟨⟨t, span⟩, rest⟩, position, last, stop, errors⟩ rfl
  · rfl
  · cases t <;> rfl

theorem looks_budget (ahead : List Lexed) : Looks budget ahead (budgetFor ahead.length) := by
  rintro c rfl
  rfl

theorem looks_seesGenerator :
    Looks seesGenerator ahead (generatorAhead (ahead.map Lexed.token)) := by
  rintro c rfl
  simp only [generatorAhead, List.head?_map, List.getElem?_map]
  rfl

theorem exists_of_symbolAhead {mark : Symbol}
    (h : symbolAhead (ahead.map Lexed.token) = some mark) :
    ∃ t rest, ahead = t :: rest ∧ t.token = .symbol mark := by
  rcases ahead with _ | ⟨⟨t, span⟩, rest⟩
  · cases h
  · cases t <;> cases h
    exact ⟨_, rest, rfl, rfl⟩

theorem fold_mem_castTypes {name : String} (h : isCastType name = true) :
    Text.fold name ∈ castTypes := by
  have hall : ∀ t ∈ castTypes, Text.fold t = t := by decide +kernel
  obtain ⟨t, ht, hsame⟩ := List.any_eq_true.1 h
  rw [← eq_of_beq hsame, hall t ht]
  exact ht

theorem literal?_reaches (token : Token) (past ahead : List Lexed) :
    Reaches short (literal? token) past ahead fun past' ahead' value =>
      past' = past ∧ ahead' = ahead ∧ ∀ v ∈ value, v.Literal := by
  unfold literal?
  split
  · next value =>
    refine .bind (P := fun past' ahead' v => past' = past ∧ ahead' = ahead ∧ v.Literal) ?_
      fun past' ahead' v h => .pure ⟨h.1, h.2.1, by simpa using h.2.2⟩
    unfold intLiteral
    split
    · next hlt => exact .pure ⟨rfl, rfl, .int (Int32.zero_le_ofNat_of_lt hlt)⟩
    · split
      · next hge hlt =>
        exact .pure ⟨rfl, rfl, .uint (by rw [UInt32.toNat_ofNat_of_lt' hlt]; omega)⟩
      · exact .fail (by simp)
  all_goals refine .pure ⟨rfl, rfl, ?_⟩
  all_goals rintro v ⟨⟩
  · exact .float
  · exact .string
  · exact .name
  · exact .bool
  · exact .bool
  · exact .null

/-- What the readers of expressions give within a budget. -/
structure GivesTrees (budget : Nat) : Prop where
  assigning : BringsWithin budget 9 (assigning budget) fun ts _ e => Phrase 0 ts e
  conditional : BringsWithin budget 8 (conditional budget) fun ts _ e => Phrase 1 ts e
  binary : ∀ power, power ≤ 10 → BringsWithin budget 7 (binary budget power) fun ts rest e =>
    Phrase (power + 2) ts e ∧ LooserAhead power rest
  operators : ∀ power, power ≤ 10 → ∀ left ts ahead, Phrase (power + 2) ts left →
    (∀ p op, (symbolAhead (ahead.map Lexed.token)).bind infixOp? = some (p, op) →
      Phrase (p + 1) ts left) →
    Reaches (budget < 16 * ahead.length + 1) (operators budget power left) ts ahead fun ts' rest e =>
      Phrase (power + 2) ts' e ∧ LooserAhead power rest
  signed : BringsWithin budget 6 (signed budget) fun ts _ e => Phrase 12 ts e
  raised : BringsWithin budget 5 (raised budget) fun ts _ e => Phrase 12 ts e
  operand : BringsWithin budget 4 (operand budget) fun ts _ e => Phrase 13 ts e
  selectors : ∀ e ts ahead, Phrase 13 ts e →
    Reaches (budget < 16 * ahead.length + 1) (selectors budget e) ts ahead fun ts' _ e' => Phrase 13 ts' e'
  arguments : BringsWithin budget 1 (arguments budget) fun ts _ es => Enclosed (ReadArguments · es) ts
  argumentList : BringsWithin budget 10 (argumentList budget) fun ts _ es => es ≠ [] ∧ ReadArguments ts es
  inParens : BringsWithin budget 1 (inParens budget) fun ts _ e => Enclosed (Phrase 0 · e) ts
  primary : BringsWithin budget 3 (primary budget) fun ts _ e => Phrase 13 ts e
  named : ∀ name t ahead,
    Reaches (budget < 16 * ahead.length + 2) (named budget name t.span) [t] ahead fun ts _ e => Phrase 13 ts e

namespace GivesTrees

variable {n : Nat}

theorem assigning_succ (h : GivesTrees n) :
    BringsWithin (n + 1) 9 (Reader.assigning (n + 1)) fun ts _ e => Phrase 0 ts e := by
  intro ahead
  rw [Reader.assigning]
  refine .readWithin h.conditional (by grind) fun ts rest left _ hl => .look looks_peekSymbol ?_
  split
  · exact .pure (.looser (Nat.zero_le 1) hl)
  next op heq =>
    obtain ⟨mark, hmark, hop⟩ := Option.bind_eq_some_iff.1 heq
    obtain ⟨t, rest, rfl, -⟩ := exists_of_symbolAhead hmark
    refine .peekSpan fun opSpan hspan => .advance (.readWithin h.assigning (by grind) fun ts' _ right _ hr => ?_)
    rw [hspan t rfl]
    exact .pure (by simpa using Phrase.assigned hop hl hr)

theorem conditional_succ (h : GivesTrees n) :
    BringsWithin (n + 1) 8 (Reader.conditional (n + 1)) fun ts _ e => Phrase 1 ts e := by
  intro ahead
  rw [Reader.conditional]
  refine .readWithin (h.binary 0 (by omega)) (by grind) fun ts _ cond _ hc => .eat (fun t _ _ _ => ?_)
    (.pure (.looser (by omega) hc.1))
  exact .readWithin h.assigning (by grind) fun ts' _ _ _ ht => .expect fun t' _ _ _ => .readWithin h.conditional (by grind)
    fun ts'' _ _ _ hf => .pure (by simpa using Phrase.conditional hc.1 ht hf)

theorem operators_succ (h : GivesTrees n) {power : Nat} (hpower : power ≤ 10) {left : Expr}
    (hleft : Phrase (power + 2) ts left)
    (hahead : ∀ p op, (symbolAhead (ahead.map Lexed.token)).bind infixOp? = some (p, op) →
      Phrase (p + 1) ts left) :
    Reaches (n + 1 < 16 * ahead.length + 1) (Reader.operators (n + 1) power left) ts ahead fun ts' rest e =>
      Phrase (power + 2) ts' e ∧ LooserAhead power rest := by
  rw [Reader.operators]
  refine .look looks_peekSymbol ?_
  split
  next hnone => exact .pure ⟨hleft, fun p op heq => by cases hnone.symm.trans heq⟩
  next p op heq =>
    split
    next hle =>
      refine .pure ⟨hleft, fun p' op' heq' => ?_⟩
      cases heq.symm.trans heq'
      exact hle
    next hlt =>
      obtain ⟨mark, hmark, hop⟩ := Option.bind_eq_some_iff.1 heq
      obtain ⟨t, rest, rfl, -⟩ := exists_of_symbolAhead hmark
      have hp : p ≤ 10 := by
        cases mark <;> cases hop <;> decide
      refine .advance (.readWithin (h.binary p hp) (by grind) fun ts' rest' right _ hright => ?_)
      have hjoined : Phrase (p + 1) (ts ++ [t] ++ ts') (op.apply left right) := by
        simpa using Phrase.joined hop (hahead p op heq) hright.1
      -- an operator behind the right operand binds no tighter, so that it takes the new tree as
      -- it is
      refine .weaken (h.operators power hpower _ _ _ (.looser (by omega) hjoined) fun p' op' heq' =>
        .looser (Nat.succ_le_succ (hright.2 p' op' heq')) hjoined) (by grind)

theorem signed_succ (h : GivesTrees n) :
    BringsWithin (n + 1) 6 (Reader.signed (n + 1)) fun ts _ e => Phrase 12 ts e := by
  intro ahead
  rw [Reader.signed]
  refine .peekSpan fun start hstart => .look looks_peek ?_
  rcases ahead with _ | ⟨t, rest⟩
  · exact (h.raised _).weaken (by grind)
  obtain rfl := hstart t rfl
  simp only [List.head?_cons, Option.map_some]
  split
  · split
    · exact .advance (.readWithin h.signed (by grind) fun ts _ e _ he => .pure (by simpa using Phrase.unary he))
    · exact .advance (.readWithin h.signed (by grind) fun ts _ e _ he => .pure (by simpa using Phrase.stepBefore he))
    · exact (h.raised _).weaken (by grind)
  · split
    · refine .advance (.readWithin h.inParens (by grind) fun ts _ e _ he => ?_)
      obtain ⟨o, c, inner, rfl, he⟩ := he
      exact .since (t := c) (by simp) (.pure (by simpa using Phrase.storage he))
    · exact (h.raised _).weaken (by grind)
  · exact (h.raised _).weaken (by grind)

theorem raised_succ (h : GivesTrees n) :
    BringsWithin (n + 1) 5 (Reader.raised (n + 1)) fun ts _ e => Phrase 12 ts e := by
  intro ahead
  rw [Reader.raised]
  refine .readWithin h.operand (by grind) fun ts _ base _ hb => .eat (fun t _ _ _ => ?_) (.pure (.looser (by omega) hb))
  exact .readWithin h.signed (by grind) fun ts' _ _ _ he => .pure (by simpa using Phrase.raised hb he)

theorem selectors_succ (h : GivesTrees n) (he : Phrase 13 ts e) :
    Reaches (n + 1 < 16 * ahead.length + 1) (Reader.selectors (n + 1) e) ts ahead fun ts' _ e' => Phrase 13 ts' e' := by
  rw [Reader.selectors]
  refine .look looks_peekSymbol ?_
  split
  next hmark =>
    obtain ⟨t, rest, rfl, -⟩ := exists_of_symbolAhead hmark
    refine .advance (.expectIdent fun t' rest' name _ _ => .look (looks_sees _) ?_)
    split
    · refine .readWithin h.arguments (by grind) fun ts' _ args _ hargs => ?_
      obtain ⟨o, c, inner, rfl, parts, rfl, hjoined, hparts⟩ := hargs
      refine .since (t := c) (by simp) (.weaken (h.selectors _ _ _ ?_) (by grind))
      simpa using Phrase.memberCall he hjoined hparts
    · exact .since (t := t') (by simp)
        (.weaken (h.selectors _ _ _ (by simpa using Phrase.member he)) (by grind))
  next hmark =>
    obtain ⟨t, rest, rfl, -⟩ := exists_of_symbolAhead hmark
    refine .advance (.readWithin h.assigning (by grind) fun ts' _ index _ hi => .expect fun c _ _ _ => ?_)
    exact .since (t := c) (by simp)
      (.weaken (h.selectors _ _ _ (by simpa using Phrase.element he hi)) (by grind))
  next mark _ _ hmark =>
    obtain ⟨t, rest, rfl, -⟩ := exists_of_symbolAhead hmark
    split
    · exact .advance (.since (t := t) (by simp)
        (.weaken (h.selectors _ _ _ (by simpa using Phrase.stepAfter he)) (by grind)))
    · exact .pure he
  · exact .pure he

theorem arguments_succ (h : GivesTrees n) :
    BringsWithin (n + 1) 1 (Reader.arguments (n + 1)) fun ts _ es => Enclosed (ReadArguments · es) ts := by
  intro ahead
  rw [Reader.arguments]
  refine .expect fun o _ _ _ => .eat (fun c _ _ _ => .pure ?_) ?_
  · exact ⟨o, c, [], rfl, [], rfl, .nil, by simp⟩
  · exact .readWithin h.argumentList (by grind) fun ts _ es _ hes => .expect fun c _ _ _ =>
      .pure ⟨o, c, ts, by simp, hes.2⟩

theorem argumentList_succ (h : GivesTrees n) :
    BringsWithin (n + 1) 10 (Reader.argumentList (n + 1)) fun ts _ es => es ≠ [] ∧ ReadArguments ts es := by
  intro ahead
  rw [Reader.argumentList]
  refine .readWithin h.assigning (by grind) fun ts _ first _ hf => .eat (fun t _ _ _ => ?_) (.pure ?_)
  · refine .readWithin h.argumentList (by grind) fun ts' _ es _ hes => .pure ⟨by simp, ?_⟩
    obtain ⟨hne, parts, rfl, hjoined, hparts⟩ := hes
    rcases parts with _ | ⟨second, parts⟩
    · simp at hne
    · exact ⟨(ts, first) :: second :: parts, rfl, by simpa using Joined.more hjoined, by
        simpa using ⟨hf, by simpa using hparts⟩⟩
  · exact ⟨by simp, [(ts, first)], rfl, .one, by simpa using hf⟩

theorem inParens_succ (h : GivesTrees n) :
    BringsWithin (n + 1) 1 (Reader.inParens (n + 1)) fun ts _ e => Enclosed (Phrase 0 · e) ts := by
  intro ahead
  rw [Reader.inParens]
  exact .expect fun o _ _ _ => .readWithin h.assigning (by grind) fun ts _ e _ he => .expect fun c _ _ _ =>
    .pure ⟨o, c, ts, by simp, he⟩

theorem primary_succ (h : GivesTrees n) :
    BringsWithin (n + 1) 3 (Reader.primary (n + 1)) fun ts _ e => Phrase 13 ts e := by
  intro ahead
  rw [Reader.primary]
  refine .peekSpan fun start hstart => .look looks_peek ?_
  rcases ahead with _ | ⟨t, rest⟩
  · exact .unexpected
  obtain rfl := hstart t rfl
  refine .bind (literal?_reaches t.token [] (t :: rest)) fun _ _ value hvalue => ?_
  obtain ⟨rfl, rfl, hvalue⟩ := hvalue
  split
  next v => exact .advance (.pure (.constant (hvalue v rfl)))
  next =>
    split
    · exact .advance (.pure .selfRef)
    · refine .readHere (h.inParens _) (by grind) fun ts rest' e hahead he => ?_
      obtain ⟨o, c, inner, rfl, he⟩ := he
      obtain ⟨rfl, -⟩ := List.cons.inj hahead
      exact .since (t := c) (by simp) (.pure (.parens he))
    · refine .typeName (fun t' o' n' c' rest' name _ _ hahead => ?_) ?_
      · obtain ⟨rfl, rfl⟩ := List.cons.inj hahead
        refine .readWithin h.inParens (by grind) fun ts _ e _ he => ?_
        obtain ⟨o, c, inner, rfl, he⟩ := he
        exact .since (t := c) (by simp) (.pure (.classCast he))
      · rintro t' rest' name htoken hahead
        obtain ⟨rfl, -⟩ := List.cons.inj hahead
        simp_all
    · exact .advance ((h.named _ _ _).weaken (by grind))
    · exact .unexpected

theorem named_succ (h : GivesTrees n) (name : String) (t : Lexed) (ahead : List Lexed) :
    Reaches (n + 1 < 16 * ahead.length + 2) (Reader.named (n + 1) name t.span) [t] ahead fun ts _ e => Phrase 13 ts e := by
  rw [Reader.named]
  refine .look looks_seesGenerator ?_
  split
  next hgenerator =>
    rcases ahead with _ | ⟨o', rest⟩
    · cases hgenerator
    refine .advance (.expectIdent fun r _ rng _ _ => .expect fun c' _ _ _ => ?_)
    refine .readWithin h.arguments (by grind) fun ts _ args _ hargs => ?_
    obtain ⟨o, c, inner, rfl, parts, rfl, hjoined, hparts⟩ := hargs
    exact .since (t := c) (by simp) (.pure (.callWith hjoined hparts))
  next =>
    refine .look (looks_sees _) ?_
    split
    · exact .pure .identifier
    split
    next hcast =>
      refine .readWithin h.inParens (by grind) fun ts _ e _ he => ?_
      obtain ⟨o, c, inner, rfl, he⟩ := he
      exact .since (t := c) (by simp) (.pure (.cast (fold_mem_castTypes hcast) he))
    next hcast =>
      refine .readWithin h.arguments (by grind) fun ts _ args _ hargs => ?_
      obtain ⟨o, c, inner, rfl, parts, rfl, hjoined, hparts⟩ := hargs
      exact .since (t := c) (by simp) (.pure (.call (Bool.eq_false_iff.2 hcast) hjoined hparts))

end GivesTrees

theorem givesTrees (budget : Nat) : GivesTrees budget := by
  induction budget with
  | zero =>
    -- too small a budget is all that the faults are due to
    constructor
    all_goals intros
    all_goals first | exact .fail fun _ => by omega | exact fun _ => .fail fun _ => by omega
  | succ n h =>
    exact {
      assigning := h.assigning_succ
      conditional := h.conditional_succ
      binary := fun power hpower ahead => by
        rw [Reader.binary]
        refine .readWithin h.signed (by grind) fun ts rest left _ hl => .weaken
          (h.operators power hpower _ _ _ (.looser (by omega) hl) fun p op heq => .looser ?_ hl) (by grind)
        obtain ⟨mark, -, hop⟩ := Option.bind_eq_some_iff.1 heq
        cases mark <;> cases hop <;> decide
      operators := fun _ hpower _ _ _ hleft hahead => h.operators_succ hpower hleft hahead
      signed := h.signed_succ
      raised := h.raised_succ
      operand := fun ahead => by
        rw [Reader.operand]
        exact .readWithin h.primary (by grind) fun ts _ e _ he =>
          .weaken (h.selectors _ _ _ he) (by grind)
      selectors := fun _ _ _ he => h.selectors_succ he
      arguments := h.arguments_succ
      argumentList := h.argumentList_succ
      inParens := h.inParens_succ
      primary := h.primary_succ
      named := h.named_succ }

theorem expression_brings : Brings expression fun ts _ e => Phrase 0 ts e :=
  fun _ => .look (looks_budget _) (((givesTrees _).assigning _).weaken (by grind [budgetFor]))

theorem phrase_of_expression {c c' : Cursor} (h : expression.run.run c = (.ok e, c')) :
    ∃ ts, c.rest = ts ++ c'.rest ∧ Phrase 0 ts e := by
  have hends := expression_brings c.rest c rfl (by simp)
  rw [h] at hends
  obtain ⟨ts, hmoves, hphrase⟩ := hends
  exact ⟨ts, hmoves.rest, hphrase⟩

end Reader

end ActorScript
