import ActorScript.Proofs.Grammar.Spans
import ActorScript.Proofs.Nodes.Constants

/-! # Trees as they are written

What reading a text gives: constants are typed at once, and all else is still to be typed.
-/

namespace ActorScript

variable {place n : Nat} {ts past ahead : List Lexed} {e : Expr} {start : Span} {c : Cursor}
  {text : String}

/-- A tree as the grammar gives it. -/
inductive Written : Expr → Prop
  | constant {m : Mark} {value : Constant} :
      m.ty = some value.ty → value.Fair true → Written (.constant m value)
  | identifier {m : Mark} {name : String} : m.ty = none → Written (.identifier m name)
  | member {m : Mark} {object : Expr} {name : String} :
      m.ty = none → Written object → Written (.member m object name)
  | call {m : Mark} {name : String} {rng : Option String} {args : List Expr} :
      m.ty = none → (∀ e ∈ args, Written e) → Written (.call m name rng args)
  | memberCall {m : Mark} {object : Expr} {name : String} {args : List Expr} :
      m.ty = none → Written object → (∀ e ∈ args, Written e) →
      Written (.memberCall m object name args)
  | explicitCast {m : Mark} {operand : Expr} {target : String} :
      m.ty = none → Written operand → Written (.explicitCast m operand target)
  | unary {m : Mark} {op : UnaryOp} {operand : Expr} :
      m.ty = none → Written operand → Written (.unary m op operand)
  | storage {m : Mark} {op : StorageOp} {operand : Expr} :
      m.ty = none → Written operand → Written (.storage m op operand)
  | step {m : Mark} {op : StepOp} {before : Bool} {operand : Expr} :
      m.ty = none → Written operand → Written (.step m op before operand)
  | assign {m : Mark} {target value : Expr} :
      m.ty = none → Written target → Written value → Written (.assign m target value)
  | assigned {m : Mark} : m.ty = none → Written (.assigned m)
  | binary {m : Mark} {op : BinOp} {left right : Expr} :
      m.ty = none → Written left → Written right → Written (.binary m op left right)
  | logical {m : Mark} {op : LogicalOp} {left right : Expr} :
      m.ty = none → Written left → Written right → Written (.logical m op left right)
  | conditional {m : Mark} {cond whenTrue whenFalse : Expr} :
      m.ty = none → Written cond → Written whenTrue → Written whenFalse →
      Written (.conditional m cond whenTrue whenFalse)
  | selfRef {m : Mark} : m.ty = none → Written (.selfRef m)
  | element {m : Mark} {array index : Expr} :
      m.ty = none → Written array → Written index → Written (.element m array index)

/-- Expressions in order, as the last part of a for loop. -/
inductive WrittenList : Stmt → Prop
  | one {span : Span} {value : Expr} : Written value → WrittenList (.expr span value)
  | many {span : Span} {body : List Stmt} :
      (∀ s ∈ body, ∃ span value, s = .expr span value ∧ Written value) →
      WrittenList (.sequence span body)

/-- A statement as the grammar gives it. Either part of a branch may be missing. -/
inductive WrittenStmt : Stmt → Prop
  | nop {span : Span} : WrittenStmt (.nop span)
  | expr {span : Span} {value : Expr} : Written value → WrittenStmt (.expr span value)
  | sequence {span : Span} {body : List Stmt} :
      (∀ s ∈ body, WrittenStmt s) → WrittenStmt (.sequence span body)
  | block {span : Span} {body : List Stmt} {locals : List LocalId} :
      (∀ s ∈ body, WrittenStmt s) → WrittenStmt (.block span body locals)
  | branch {span : Span} {cond : Expr} {whenTrue whenFalse : Option Stmt} :
      Written cond → (∀ s ∈ whenTrue, WrittenStmt s) → (∀ s ∈ whenFalse, WrittenStmt s) →
      WrittenStmt (.branch span cond whenTrue whenFalse)
  | whileLoop {span : Span} {cond : Expr} {body : Stmt} :
      Written cond → WrittenStmt body → WrittenStmt (.whileLoop span cond body)
  | doWhile {span : Span} {body : Stmt} {cond : Expr} :
      WrittenStmt body → Written cond → WrittenStmt (.doWhile span body cond)
  | forLoop {span : Span} {first : Option Stmt} {cond : Option Expr} {step : Option Stmt}
      {body : Stmt} :
      (∀ s ∈ first, WrittenStmt s) → (∀ e ∈ cond, Written e) → (∀ s ∈ step, WrittenList s) →
      WrittenStmt body → WrittenStmt (.forLoop span first cond step body)
  | jump {span : Span} {kind : JumpKind} : WrittenStmt (.jump span kind)
  | ret {span : Span} {value : Option Expr} :
      (∀ e ∈ value, Written e) → WrittenStmt (.ret span value)
  | declare {span : Span} {name type : String} {value : Option Expr} :
      (∀ e ∈ value, Written e) → WrittenStmt (.declare span name type value none)

theorem WrittenList.stmt {s : Stmt} (h : WrittenList s) : WrittenStmt s := by
  cases h with
  | one he => exact .expr he
  | many hbody =>
    refine .sequence fun s hs => ?_
    obtain ⟨span, value, rfl, he⟩ := hbody s hs
    exact .expr he

/-! ## What the readers give -/

theorem Constant.Literal.fair {value : Constant} (h : value.Literal) : value.Fair true := by
  cases h with
  | int => exact Constant.fair_int _
  | uint => exact Constant.fair_uint _
  | float => exact Constant.fair_float _
  | string => exact Constant.fair_string _
  | name => exact Constant.fair_name _
  | bool => exact Constant.fair_bool _
  | null => exact Constant.fair_null

theorem Phrase.written_withSpan (h : Phrase place ts e) : ∀ span, Written (e.withSpan span) := by
  have itself {e : Expr} (h : ∀ span, Written (e.withSpan span)) : Written e :=
    e.withSpan_span ▸ h e.span
  have each {parts : List (List Lexed × Expr)}
      (h : ∀ p ∈ parts, ∀ span, Written (p.2.withSpan span)) :
      ∀ e ∈ parts.map Prod.snd, Written e := by
    simpa using fun e ts hp => itself (h (ts, e) hp)
  induction h with intro span
  | looser _ _ ih => exact ih span
  | parens _ ih => exact (Expr.withSpan_withSpan _ _ _).symm ▸ ih span
  | constant hvalue => exact .constant rfl hvalue.fair
  | selfRef => exact .selfRef rfl
  | identifier => exact .identifier rfl
  | call _ _ _ ih | callWith _ _ ih => exact .call rfl (each ih)
  | cast _ _ ih | classCast _ ih => exact .explicitCast rfl (itself ih)
  | member _ ih => exact .member rfl (itself ih)
  | memberCall _ _ _ ih ihs => exact .memberCall rfl (itself ih) (each ihs)
  | element _ _ iha ihi => exact .element rfl (itself iha) (itself ihi)
  | stepAfter _ ih | stepBefore _ ih => exact .step rfl (itself ih)
  | raised _ _ ihl ihr => exact .binary rfl (itself ihl) (itself ihr)
  | unary _ ih => exact .unary rfl (itself ih)
  | storage _ ih => exact .storage rfl (itself ih)
  | @joined _ _ _ op _ _ _ _ _ _ _ ihl ihr =>
    cases op with
    | plain op => exact .binary rfl (itself ihl) (itself ihr)
    | logical op => exact .logical rfl (itself ihl) (itself ihr)
  | conditional _ _ _ ihc iht ihf =>
    exact .conditional rfl (itself ihc) (itself iht) (itself ihf)
  | @assigned _ _ op _ _ _ _ _ _ _ ihl ihr =>
    cases op with
    | none => exact .assign rfl (itself ihl) (itself ihr)
    | some op => exact .assign rfl (itself ihl) (.binary rfl (.assigned rfl) (itself ihr))

theorem Phrase.written (h : Phrase place ts e) : Written e :=
  e.withSpan_span ▸ h.written_withSpan e.span

/-- An expression that was read from among some tokens. -/
def Inside (ts : List Lexed) (e : Expr) : Prop :=
  Written e ∧ ∃ own, own.Sublist ts ∧ e.Lies own

theorem Phrase.inside (h : Phrase place ts e) : Inside ts e :=
  ⟨h.written, ts, .refl ts, h.lies⟩

theorem Inside.within {ts' : List Lexed} (h : Inside ts e) (hsub : ts.Sublist ts') :
    Inside ts' e := by
  obtain ⟨hwritten, own, hown, hlies⟩ := h
  exact ⟨hwritten, own, hown.trans hsub, hlies⟩

/-- A statement that was read from among some tokens. -/
def Clause (P : Stmt → Prop) (ts : List Lexed) (s : Stmt) : Prop :=
  P s ∧ ∃ own, own ≠ [] ∧ own.Sublist ts ∧ s.Lies own

namespace Clause

variable {P P' : Stmt → Prop} {ts ts' : List Lexed} {s : Stmt}

theorem node (hP : P s) (hne : ts ≠ []) (hspan : Spanned ts s.span)
    (hchildren : ∀ x ∈ s.children, ∃ own, own.Sublist ts ∧ x.Lies own)
    (hexprs : ∀ e ∈ s.exprs, ∃ own, own.Sublist ts ∧ e.Lies own) : Clause P ts s :=
  ⟨hP, ts, hne, .refl ts, .node hspan hchildren hexprs⟩

theorem mono (h : Clause P ts s) (hP : P s → P' s) (hsub : ts.Sublist ts') : Clause P' ts' s := by
  obtain ⟨hs, own, hne, hown, hlies⟩ := h
  exact ⟨hP hs, own, hne, hown.trans hsub, hlies⟩

theorem within (h : Clause P ts s) (hsub : ts.Sublist ts') : Clause P ts' s :=
  h.mono id hsub

theorem ne_nil (h : Clause P ts s) : ts ≠ [] := by
  obtain ⟨-, own, hne, hown, -⟩ := h
  rintro rfl
  exact hne (List.sublist_nil.1 hown)

theorem child (h : Clause P ts s) (hsub : ts.Sublist ts') : ∃ own, own.Sublist ts' ∧ s.Lies own := by
  obtain ⟨-, own, -, hown, hlies⟩ := h
  exact ⟨own, hown.trans hsub, hlies⟩

end Clause

namespace Reader

section Statements

variable {α : Type} {short : Prop} {P : List Lexed → List Lexed → α → Prop} {item : Reader α}

/-- What stands between commas was read one by one. -/
theorem commaList_brings {P : List Lexed → α → Prop} (h : Brings item fun ts _ a => P ts a)
    (hne : ∀ ts a, P ts a → ts ≠ []) (budget : Nat) (ahead : List Lexed) :
    Reaches (budget < ahead.length + 1) (commaList item budget) [] ahead fun ts _ items =>
      ts ≠ [] ∧ ∀ a ∈ items, ∃ own, own.Sublist ts ∧ P own a := by
  induction budget generalizing ahead with
  | zero => exact .fail fun _ => Nat.succ_pos _
  | succ n ih =>
    rw [commaList]
    refine .readAhead h fun ts _ first _ hf => .eat (fun t rest _ _ => ?_) (.pure ⟨hne _ _ hf, ?_⟩)
    · refine .readHere (ih rest) (by grind) fun ts' _ rest _ hr => .pure ⟨by simp, ?_⟩
      simp only [List.mem_cons, forall_eq_or_imp]
      refine ⟨⟨ts, by grind, hf⟩, fun a ha => ?_⟩
      obtain ⟨own, hsub, hown⟩ := hr.2 a ha
      exact ⟨own, by grind, hown⟩
    · simpa using ⟨ts, .refl ts, hf⟩

/-- Whatever the size of an array is, it is one token. -/
theorem Reaches.arraySize {f : UInt64 → Reader α}
    (hf : ∀ t rest size, Reaches short (f size) (past ++ [t]) rest P) :
    Reaches short (Reader.arraySize >>= f) past ahead P := by
  rw [Reader.arraySize, bind_assoc]
  refine .look looks_peek ?_
  rw [bind_assoc]
  rcases ahead with _ | ⟨t, rest⟩
  · rintro ⟨_, position, last, stop, errors⟩ rfl -
    exact ⟨[], .refl _, rfl, by simp⟩
  · refine .advance ?_
    split
    · next size _ => exact hf t rest size
    · exact .bind (.fail (by simp)) fun _ _ _ => False.elim

theorem declarator_brings (type : String) :
    Brings (declarator type) fun ts _ s => Clause WrittenStmt ts s := by
  intro ahead
  rw [declarator]
  refine .peekSpan fun start hstart => .expectIdent fun t rest name _ hahead => ?_
  subst hahead
  obtain rfl := hstart t rfl
  have hdeclare (type : String) (value : Option Expr) {past ahead : List Lexed}
      (hpast : Opens t.span past) (hvalue : ∀ e ∈ value, Inside past e) :
      Reaches False (do return Stmt.declare (← since t.span) name type value none) past ahead
        fun ts _ s => Clause WrittenStmt ts s := by
    refine .sinceStart hpast fun span hspan => .pure (.node ?_ hpast.ne_nil hspan nofun ?_)
    · exact .declare fun e he => (hvalue e he).1
    · simpa [Stmt.exprs] using fun e he => (hvalue e he).2
  have hvalue (type : String) {past ahead : List Lexed} (hpast : Opens t.span past) :
      Reaches False (do
        let value ← if ← eat .assign then some <$> expression else pure none
        return Stmt.declare (← since t.span) name type value none) past ahead
        fun ts _ s => Clause WrittenStmt ts s := by
    refine .eat (fun o _ _ _ => .read (fun _ => (expression_brings _).map some) fun ts _ value hv => ?_)
      (hdeclare _ _ hpast nofun)
    obtain ⟨e, rfl, he⟩ := hv
    exact hdeclare _ _ ((hpast.append _).append _)
      (by simpa using he.inside.within (by grind))
  refine .eat (fun o _ _ _ => .arraySize fun s _ size => .expect fun c _ _ _ => ?_) ?_
  · exact hvalue _ ⟨t, rfl, rfl⟩
  · exact hvalue _ ⟨t, rfl, rfl⟩

/-- One thing by itself, or a sequence of several. -/
theorem sequenceFrom_reaches {P : Stmt → Prop} {list : List Stmt} (hstart : Opens start past)
    (h : ∀ s ∈ list, Clause P past s) (hmany : ∀ span, P (.sequence span list)) :
    Reaches short (sequenceFrom start list) past ahead fun ts _ s => Clause P ts s := by
  unfold sequenceFrom
  split
  · exact .pure (h _ (by simp))
  · refine .sinceStart hstart fun span hspan => .pure (.node (hmany span) hstart.ne_nil hspan ?_ nofun)
    exact fun s hs => (h s hs).child (.refl _)

theorem declaration_brings : Brings declaration fun ts _ s => Clause WrittenStmt ts s := by
  intro ahead
  have hnext (start : Span) (type : String) {past ahead : List Lexed} (hstart : Opens start past) :
      Reaches False (do
        let declared ← commaList (declarator type) (← budget)
        sequenceFrom start declared) past ahead fun ts _ s => Clause WrittenStmt ts s := by
    refine .look (looks_budget _) (.readHere (commaList_brings (declarator_brings type)
      (fun _ _ h => h.ne_nil) _ _) (by grind [budgetFor]) fun ts _ list _ h => ?_)
    have hall : ∀ s ∈ list, Clause WrittenStmt (past ++ ts) s := by
      intro s hs
      obtain ⟨own, hsub, hown⟩ := h.2 s hs
      exact hown.within (by grind)
    exact sequenceFrom_reaches (hstart.append ts) hall fun _ => .sequence fun s hs => (hall s hs).1
  rw [declaration]
  refine .peekSpan fun start hstart => .typeName (fun t o n c _ name _ _ hahead => ?_)
    (fun t _ name _ hahead => ?_)
  · exact hnext _ _ ⟨t, rfl, hstart t (by simp [hahead])⟩
  · exact hnext _ _ ⟨t, rfl, hstart t (by simp [hahead])⟩

def IsValue (s : Stmt) : Prop :=
  ∃ span value, s = .expr span value ∧ Written value

theorem expressionStatement_brings :
    Brings expressionStatement fun ts _ s => Clause IsValue ts s := by
  refine fun _ => .read expression_brings fun ts _ e he => .pure ?_
  exact .node ⟨_, e, rfl, he.written⟩ he.ne_nil he.lies.span nofun
    (by simpa [Stmt.exprs] using ⟨ts, .refl ts, he.lies⟩)

theorem expressionList_brings : Brings expressionList fun ts _ s => Clause WrittenList ts s := by
  intro ahead
  rw [expressionList]
  refine .peekSpan fun start hstart => .look (looks_budget _) (.readHere
    (commaList_brings expressionStatement_brings (fun _ _ h => h.ne_nil) _ _) (by grind [budgetFor])
    fun ts rest list hahead h => ?_)
  have hall : ∀ s ∈ list, Clause IsValue ts s := by
    intro s hs
    obtain ⟨own, hsub, hown⟩ := h.2 s hs
    exact hown.within hsub
  obtain ⟨t, more, rfl⟩ := List.exists_cons_of_ne_nil h.1
  refine sequenceFrom_reaches ⟨t, rfl, hstart t (by simp [hahead])⟩ (fun s hs => ?_)
    fun _ => .many fun s hs => (hall s hs).1
  refine (hall s hs).mono ?_ (.refl _)
  rintro ⟨span, value, rfl, hvalue⟩
  exact .one hvalue

theorem parenthesized_brings : Brings parenthesized fun ts _ e => ts ≠ [] ∧ Inside ts e := by
  refine fun ahead => .look (looks_budget _) (.weaken (.mono ((givesTrees _).inParens ahead)
    fun _ _ e he => ?_) (by grind [budgetFor]))
  obtain ⟨o, c, inner, rfl, he⟩ := he
  exact ⟨by simp, he.inside.within (by grind)⟩

theorem unlessSees_brings {P : List Lexed → α → Prop} (h : Brings item fun ts _ a => P ts a)
    (mark : Symbol) : Brings (unlessSees mark item) fun ts _ found => ∀ a ∈ found, P ts a := by
  intro ahead
  refine .look (looks_sees mark) ?_
  split
  · exact .pure nofun
  · refine ((h ahead).map some).mono fun _ _ found hfound => ?_
    obtain ⟨a, rfl, ha⟩ := hfound
    simpa using ha

theorem leaving_reaches (word : Keyword) (hstart : Opens start past) :
    Reaches short (leaving word start) past ahead fun ts _ s => Clause WrittenStmt ts s := by
  have hjump (kind : JumpKind) : Reaches short (do
      let _ ← expect .semi
      return Stmt.jump (← since start) kind) past ahead fun ts _ s => Clause WrittenStmt ts s :=
    .expect fun t _ _ _ => .sinceStart (hstart.append _) fun span hspan =>
      .pure (.node .jump (by simp) hspan nofun nofun)
  unfold leaving
  split
  · exact hjump .break
  · exact hjump .continue
  · refine .read (unlessSees_brings expression_brings _) fun ts _ value hvalue =>
      .expect fun t _ _ _ => .sinceStart ((hstart.append _).append _) fun span hspan =>
        .pure (.node (.ret fun e he => (hvalue e he).written) (by simp) hspan nofun ?_)
    simpa [Stmt.exprs] using fun e he => ⟨ts, by grind, (hvalue e he).lies⟩

theorem Reaches.seesDeclaration {f : Bool → Reader α} (hf : ∀ b, Reaches short (f b) past ahead P) :
    Reaches short (Reader.seesDeclaration >>= f) past ahead P := by
  rw [Reader.seesDeclaration, bind_assoc]
  refine .look looks_peek ?_
  split
  · rw [bind_assoc]
    exact .look (looks_peekAt 1) (hf _)
  · simp only [bind_assoc]
    exact .look (looks_peekAt 1) (.look (looks_peekAt 4) (hf _))
  · exact hf false

theorem simpleStatement_reaches (hstart : ∀ t ∈ ahead.head?, start = t.span) :
    Reaches short (simpleStatement start) [] ahead fun ts _ s => Clause WrittenStmt ts s := by
  refine .seesDeclaration fun b => ?_
  split
  · exact .read declaration_brings fun ts _ s hs => .expect fun t _ _ _ =>
      .pure (hs.within (by grind))
  · refine .readAhead expression_brings fun ts _ e hahead he => .expect fun t _ _ _ => ?_
    obtain ⟨t', more, rfl⟩ := List.exists_cons_of_ne_nil he.ne_nil
    refine .sinceStart ⟨t', rfl, hstart t' (by simp [hahead])⟩ fun span hspan =>
      .pure (.node (.expr he.written) (by simp) hspan nofun ?_)
    simpa [Stmt.exprs] using ⟨_, by grind, he.lies⟩

/-- What the readers of statements give within a budget. -/
structure GivesStatements (budget : Nat) : Prop where
  statement : BringsWithin budget 2 (statement budget) fun ts _ s => Clause WrittenStmt ts s
  blockStatement : BringsWithin budget 1 (blockStatement budget) fun ts _ s => Clause WrittenStmt ts s
  branchStatement : BringsWithin budget 1 (branchStatement budget) fun ts _ s => Clause WrittenStmt ts s
  forStatement : BringsWithin budget 1 (forStatement budget) fun ts _ s => Clause WrittenStmt ts s
  statements : ∀ c, Ends (budget < 16 * c.rest.length + 3) 1 c []
    (fun ts _ body => ∀ s ∈ body, Clause WrittenStmt ts s) ((statements budget).run.run c)

namespace GivesStatements

variable {n : Nat}

theorem statement_succ (h : GivesStatements n) :
    BringsWithin (n + 1) 2 (Reader.statement (n + 1)) fun ts _ s => Clause WrittenStmt ts s := by
  intro ahead
  rw [Reader.statement]
  refine .peekSpan fun start hstart => .look looks_peek ?_
  rcases ahead with _ | ⟨t, rest⟩
  · exact simpleStatement_reaches hstart
  have hopens (ts : List Lexed) : Opens start ([] ++ [t] ++ ts) := ⟨t, rfl, hstart t rfl⟩
  split
  · exact (h.blockStatement _).weaken (by grind)
  · refine .advance (.pure (.node .nop (by simp) ?_ nofun nofun))
    exact hstart t rfl ▸ spanned_token t
  · exact (h.branchStatement _).weaken (by grind)
  · refine .advance (.readAhead parenthesized_brings fun ts _ cond _ hc => .readWithin h.statement (by grind)
      fun ts' _ body _ hs => .sinceStart ((hopens _).append _) fun span hspan =>
        .pure (.node (.whileLoop hc.2.1 hs.1) (by simp) hspan ?_ ?_))
    · simpa [Stmt.children] using hs.child (by grind)
    · simpa [Stmt.exprs] using (hc.2.within (by grind)).2
  · refine .advance (.readWithin h.statement (by grind) fun ts _ body _ hs => .expectKeyword fun w _ _ _ =>
      .read parenthesized_brings fun ts' _ cond hc => .expect fun c _ _ _ =>
        .sinceStart (by simpa using hopens _) fun span hspan =>
          .pure (.node (.doWhile hs.1 hc.2.1) (by simp) hspan ?_ ?_))
    · simpa [Stmt.children] using hs.child (by grind)
    · simpa [Stmt.exprs] using (hc.2.within (by grind)).2
  · exact (h.forStatement _).weaken (by grind)
  · exact .advance (leaving_reaches _ (hopens []))
  · exact .advance (leaving_reaches _ (hopens []))
  · exact .advance (leaving_reaches _ (hopens []))
  · exact simpleStatement_reaches hstart

theorem branchStatement_succ (h : GivesStatements n) :
    BringsWithin (n + 1) 1 (Reader.branchStatement (n + 1)) fun ts _ s => Clause WrittenStmt ts s := by
  intro ahead
  rw [Reader.branchStatement]
  refine .expectKeyword fun t _ _ _ => .readAhead parenthesized_brings fun ts _ cond _ hc =>
    .readWithin h.statement (by grind) fun ts' _ whenTrue _ ht => .eatKeyword (fun w _ _ _ => ?_) ?_
  · refine .readWithin h.statement (by grind) fun ts'' _ whenFalse _ hf => .sinceStart ⟨t, by simp, rfl⟩ fun span hspan =>
      .pure (.node (.branch hc.2.1 (by simpa using ht.1) (by simpa using hf.1)) (by simp) hspan ?_ ?_)
    · simpa [Stmt.children] using ⟨ht.child (by grind), hf.child (by grind)⟩
    · simpa [Stmt.exprs] using (hc.2.within (by grind)).2
  · refine .sinceStart ⟨t, by simp, rfl⟩ fun span hspan =>
      .pure (.node (.branch hc.2.1 (by simpa using ht.1) (by simp)) (by simp) hspan ?_ ?_)
    · simpa [Stmt.children] using ht.child (by grind)
    · simpa [Stmt.exprs] using (hc.2.within (by grind)).2

theorem forStatement_succ (h : GivesStatements n) :
    BringsWithin (n + 1) 1 (Reader.forStatement (n + 1)) fun ts _ s => Clause WrittenStmt ts s := by
  intro ahead
  have hfirst : Brings (do if ← seesDeclaration then declaration else expressionList)
      fun ts _ s => Clause WrittenStmt ts s := by
    refine fun ahead => .seesDeclaration fun b => ?_
    split
    · exact declaration_brings ahead
    · exact (expressionList_brings ahead).mono fun _ _ _ hs => hs.mono WrittenList.stmt (.refl _)
  rw [Reader.forStatement]
  refine .expectKeyword fun t _ _ _ => .expect fun o _ _ _ =>
    .readAhead (unlessSees_brings hfirst _) fun ts _ first _ hfirst => .expect fun c _ _ _ =>
    .readAhead (unlessSees_brings expression_brings _) fun ts' _ cond _ hcond => .expect fun c' _ _ _ =>
    .readAhead (unlessSees_brings expressionList_brings _) fun ts'' _ step _ hstep =>
    .expect fun c'' _ _ _ => .readWithin h.statement (by grind) fun ts3 _ body _ hbody =>
    .sinceStart ⟨t, by simp, rfl⟩ fun span hspan => .pure (.node ?_ (by simp) hspan ?_ ?_)
  · exact .forLoop (fun s hs => (hfirst s hs).1) (fun e he => (hcond e he).written)
      (fun s hs => (hstep s hs).1) hbody.1
  · simp only [Stmt.children, List.mem_append, Option.mem_toList, List.mem_singleton]
    rintro x (hx | hx | rfl)
    · exact (hfirst x hx).child (by grind)
    · exact (hstep x hx).child (by grind)
    · exact hbody.child (by grind)
  · simpa [Stmt.exprs] using fun e he => ⟨ts', by grind, (hcond e he).lies⟩

theorem opened_brings (h : GivesStatements n) :
    BringsWithin (n + 1) 1 (do
      let start ← expect .lBrace
      let body ← Reader.statements n
      return (start, body)) fun ts _ p => ∃ t inner, ts = t :: inner ∧ p.1 = t.span ∧
        ∀ s ∈ p.2, Clause WrittenStmt inner s := by
  rintro _ c rfl hlast
  have hexpect : Reaches (n + 1 < 16 * c.rest.length + 1) (expect .lBrace) [] c.rest
      fun ts _ span => ∃ t, ts = [t] ∧ span = t.span ∧ t.token = .symbol .lBrace := by
    rw [← bind_pure (expect _)]
    exact .expect fun t _ ht _ => .pure ⟨t, rfl, rfl, ht⟩
  have hends := hexpect c rfl hlast
  rw [run_bind]
  generalize (expect .lBrace).run.run c = outcome at hends ⊢
  rcases outcome with ⟨e | start, c1⟩
  · exact hends
  obtain ⟨ts, hmoves, t, hts, hspan, ht⟩ := hends
  have hends := h.statements c1
  change Ends _ 0 c [] _ ((Reader.statements n >>= fun body => pure (start, body)).run.run c1)
  rw [run_bind]
  generalize (Reader.statements n).run.run c1 = outcome at hends ⊢
  obtain rfl : ts = [t] := hts
  have hbraces : 1 ≤ 0 + braces [t] := by simp [braces, ht, isSymbol]
  have hshort : n < 16 * c1.rest.length + 3 → n + 1 < 16 * c.rest.length + 1 := by
    have := hmoves.length_lt (by simp)
    omega
  rcases outcome with ⟨e | body, c2⟩
  · obtain ⟨ts', hmoves', he, hdeep⟩ := hends
    exact ⟨[t] ++ ts', hmoves.join (hmoves'.weaken hshort) (Nat.zero_le _) hbraces, he, hshort ∘ hdeep⟩
  · obtain ⟨ts', hmoves', hbody⟩ := hends
    exact ⟨[t] ++ ts', hmoves.join (hmoves'.weaken hshort) (Nat.zero_le _) hbraces, t, ts', rfl,
      hspan, hbody⟩

theorem blockStatement_succ (h : GivesStatements n) :
    BringsWithin (n + 1) 1 (Reader.blockStatement (n + 1)) fun ts _ s => Clause WrittenStmt ts s := by
  intro ahead
  have hblock : Reader.blockStatement (n + 1) = (do
      let start ← expect .lBrace
      let body ← Reader.statements n
      return (start, body)) >>= fun p => do
      let _ ← expect .rBrace
      return .block (← since p.1) p.2 [] := by
    rw [Reader.blockStatement]
    simp only [bind_assoc, pure_bind]
  rw [hblock]
  refine .readWithin h.opened_brings id fun ts _ p _ hp => .expect fun c _ _ _ => ?_
  obtain ⟨t, inner, rfl, hstart, hbody⟩ := hp
  refine .sinceStart ⟨t, rfl, hstart⟩ fun span hspan =>
    .pure (.node (.block fun s hs => (hbody s hs).1) (by simp) hspan ?_ nofun)
  exact fun s hs => (hbody s hs).child (by grind)

end GivesStatements

/-! ## Going on after a fault -/

theorem run_tryCatch {α : Type} (x : Reader α) (h : SyntaxError → Reader α) (c : Cursor) :
    (tryCatch x h).run.run c = match x.run.run c with
      | (.ok a, c') => (.ok a, c')
      | (.error e, c') => (h e).run.run c' := by
  simp only [MonadExcept.tryCatch, tryCatchThe, MonadExceptOf.tryCatch, ExceptT.run, StateT.run,
    ExceptT.tryCatch, ExceptT.mk, Bind.bind, StateT.bind]
  rcases x c with ⟨r | a, c'⟩ <;> rfl

theorem advance_moves (c : Cursor) :
    ∃ c', advance.run.run c = (.ok (), c') ∧ c.Moves short 0 (c.rest.take 1) c' := by
  rcases hrest : c.rest with _ | ⟨t, rest⟩
  · refine ⟨c, ?_, .refl c⟩
    change (Except.ok (), _) = _
    simp only [hrest]
  · refine ⟨_, ?_, .advance c hrest⟩
    change (Except.ok (), _) = _
    simp only [hrest]

theorem advanceBy_moves (n : Nat) (c : Cursor) :
    ∃ c' ts, (advanceBy n).run.run c = (.ok (), c') ∧ c.Moves short 0 ts c' := by
  induction n generalizing c with
  | zero => exact ⟨c, [], rfl, .refl c⟩
  | succ n ih =>
    obtain ⟨c1, hrun, hmoves⟩ := advance_moves c
    obtain ⟨c2, ts, hrun', hmoves'⟩ := ih c1
    exact ⟨c2, _, (run_bind_ok hrun _).trans hrun', hmoves.trans hmoves'⟩

/-- What is done after a fault in a statement that began at a position. -/
def goOn (before : Nat) (e : SyntaxError) : Reader (Option Stmt) := do
  recordError e
  skipStatement
  if (← get).position == before then advance
  return none

/-- After a fault at least one token is passed over, if there is one. -/
theorem goOn_moves (before : Nat) (e : SyntaxError) (c : Cursor) :
    ∃ c' ts, (goOn before e).run.run c = (.ok none, c') ∧
      { c with errors := c.errors ++ [e] }.Moves short 0 ts c' ∧
      (c.position = before → c.rest ≠ [] → ts ≠ []) := by
  obtain ⟨c1, ts, hskip, hmoves⟩ :=
    advanceBy_moves (skipLength 0 c.rest) { c with errors := c.errors ++ [e] }
  have hskipped : skipStatement.run.run { c with errors := c.errors ++ [e] } = (.ok (), c1) := hskip
  have hrun : (goOn before e).run.run c =
      ((if c1.position == before then advance else pure ()) >>= fun _ => pure none).run.run c1 := by
    have hrecord : (recordError e).run.run c = (.ok (), { c with errors := c.errors ++ [e] }) := rfl
    rw [goOn, run_bind_ok hrecord, run_bind_ok hskipped]
    change (if c1.position == before then _ else _ : Reader (Option Stmt)).run.run c1 = _
    split <;> rfl
  rw [hrun, run_bind]
  by_cases hsame : c1.position = before
  · obtain ⟨c2, hadvance, hmoves'⟩ := advance_moves c1
    rw [if_pos (beq_iff_eq.2 hsame), hadvance]
    refine ⟨c2, _, rfl, hmoves.trans hmoves', fun hbefore hne hnil => ?_⟩
    obtain ⟨rfl, htake⟩ := List.append_eq_nil_iff.1 hnil
    have hrest : c.rest = c1.rest := hmoves.rest
    rw [← hrest] at htake
    rcases hc : c.rest with _ | ⟨t, rest⟩
    · exact hne hc
    · simp [hc] at htake
  · rw [if_neg (by simpa using hsame)]
    refine ⟨c1, ts, rfl, hmoves, ?_⟩
    rintro hbefore - rfl
    exact hsame (hmoves.position.trans hbefore)

/-! ## Rounds -/

def statementsRound (n : Nat) : Reader (List Stmt × Bool) := do
  if (← atEnd) || (← sees .rBrace) || maxSyntaxErrors ≤ (← errorCount) then return ([], false)
  else
    let read ← tryCatch (some <$> statement n) (goOn (← get).position)
    return (read.toList, true)

def bodyRound : Reader (List Stmt × Bool) := do
  let body ← statements (← budget)
  if (← atEnd) || maxSyntaxErrors ≤ (← errorCount) then return (body, false)
  else
    recordError (← unexpected "a statement")
    advance
    return (body, true)

def andThen (loop : Reader (List Stmt)) (read : List Stmt × Bool) : Reader (List Stmt) :=
  if read.2 then (read.1 ++ ·) <$> loop else pure read.1

theorem run_andThen {loop : Reader (List Stmt)} {c' : Cursor} {body more : List Stmt}
    (h : loop.run.run c = (.ok more, c')) :
    (andThen loop (body, true)).run.run c = (.ok (body ++ more), c') := by
  change ((body ++ ·) <$> loop).run.run c = _
  rw [map_eq_pure_bind, run_bind_ok h]
  rfl

theorem statements_eq_rounds (n : Nat) :
    statements (n + 1) = statementsRound n >>= andThen (statements n) := by
  rw [statements, statementsRound]
  simp only [bind_assoc]
  refine bind_congr fun _ => bind_congr fun _ => bind_congr fun _ => ?_
  split
  · rfl
  · simp only [bind_assoc, pure_bind, andThen, if_true, map_eq_pure_bind]
    rfl

theorem bodyStatements_eq_rounds (rounds : Nat) :
    bodyStatements (rounds + 1) = bodyRound >>= andThen (bodyStatements rounds) := by
  rw [bodyStatements, bodyRound]
  simp only [bind_assoc]
  refine bind_congr fun _ => bind_congr fun _ => bind_congr fun _ => bind_congr fun _ => ?_
  split
  · rfl
  · simp only [bind_assoc, pure_bind, andThen, if_true, map_eq_pure_bind]

theorem run_statementsRound (n : Nat) (c : Cursor) : (statementsRound n).run.run c =
    if (c.rest.isEmpty || isSymbol .rBrace (c.rest.head?.map Lexed.token) ||
        maxSyntaxErrors ≤ c.errors.length) = true then (.ok ([], false), c)
    else (do
      let read ← tryCatch (some <$> statement n) (goOn c.position)
      return (read.toList, true) : Reader (List Stmt × Bool)).run.run c := by
  change (if _ then _ else _ : Reader (List Stmt × Bool)).run.run c = _
  split <;> rfl

/-- A round of reading statements is the last one, or a token is passed over: a statement is read, or
tokens are skipped after a fault. -/
theorem statementsRound_moves (h : GivesStatements n) (c : Cursor) :
    ∃ read c' ts, (statementsRound n).run.run c = (.ok read, c') ∧
      c.Moves (n < 16 * c.rest.length + 2) 1 ts c' ∧ (read.2 = true → ts ≠ []) ∧
      ∀ s ∈ read.1, Clause WrittenStmt ts s := by
  rw [run_statementsRound]
  split
  · exact ⟨_, c, [], rfl, .refl c, by simp, by simp⟩
  next hgo =>
    simp only [Bool.or_eq_true, decide_eq_true_eq, not_or, List.isEmpty_iff, Nat.not_le] at hgo
    have hends := (h.statement c.rest).map some c rfl (by simp)
    rw [run_bind, run_tryCatch]
    generalize (some <$> statement n).run.run c = outcome at hends ⊢
    rcases outcome with ⟨e | read, c1⟩
    · obtain ⟨ts, hmoves, he, hdeep⟩ := hends
      obtain ⟨c2, ts', hrun, hmoves', hprogress⟩ := goOn_moves c.position e c1
      refine ⟨([], true), c2, ts ++ ts', by simp only [hrun]; rfl,
        (hmoves.record he hdeep hgo.2).trans (hmoves'.mono (Nat.zero_le 1)), fun _ hnil => ?_, by simp⟩
      obtain ⟨rfl, rfl⟩ := List.append_eq_nil_iff.1 hnil
      exact hprogress hmoves.position (fun hnone => hgo.1.1 (hmoves.rest.trans hnone)) rfl
    · obtain ⟨ts, hmoves, s, rfl, hs⟩ := hends
      exact ⟨([s], true), c1, ts, rfl, hmoves.mono (Nat.zero_le 1), fun _ => hs.ne_nil, by simpa using hs⟩

theorem statements_succ (h : GivesStatements n) (c : Cursor) :
    Ends (n + 1 < 16 * c.rest.length + 3) 1 c [] (fun ts _ body => ∀ s ∈ body, Clause WrittenStmt ts s)
      ((statements (n + 1)).run.run c) := by
  obtain ⟨⟨body, more⟩, c1, ts, hrun, hmoves, hne, hread⟩ := statementsRound_moves h c
  have hmoves := hmoves.weaken (show _ → n + 1 < 16 * c.rest.length + 3 by omega)
  rw [statements_eq_rounds, run_bind_ok hrun]
  cases more with
  | false => exact ⟨ts, hmoves, hread⟩
  | true =>
    have hlt := hmoves.length_lt (hne rfl)
    have hshort : n < 16 * c1.rest.length + 3 → n + 1 < 16 * c.rest.length + 3 := by omega
    have hends := h.statements c1
    change Ends _ 1 c [] _ (((body ++ ·) <$> statements n).run.run c1)
    rw [map_eq_pure_bind, run_bind]
    generalize (statements n).run.run c1 = outcome at hends ⊢
    rcases outcome with ⟨e | rest, c2⟩
    · obtain ⟨ts', hmoves', he, hdeep⟩ := hends
      exact ⟨ts ++ ts', hmoves.trans (hmoves'.weaken hshort), he, hshort ∘ hdeep⟩
    · obtain ⟨ts', hmoves', hrest⟩ := hends
      refine ⟨ts ++ ts', hmoves.trans (hmoves'.weaken hshort), fun s hs => ?_⟩
      rcases List.mem_append.1 hs with hs | hs
      · exact (hread s hs).within (by grind)
      · exact (hrest s hs).within (by grind)

theorem givesStatements (budget : Nat) : GivesStatements budget := by
  induction budget with
  | zero =>
    have hfail {k : Nat} (hk : 0 < k) {P : List Lexed → List Lexed → Stmt → Prop} :
        BringsWithin 0 k (fail .tooDeep) P := fun _ => .fail fun _ => by omega
    exact ⟨hfail (by decide), hfail (by decide), hfail (by decide), hfail (by decide),
      fun c => ⟨[], .refl c, rfl, fun _ => by omega⟩⟩
  | succ n h =>
    exact {
      statement := h.statement_succ
      blockStatement := h.blockStatement_succ
      branchStatement := h.branchStatement_succ
      forStatement := h.forStatement_succ
      statements := statements_succ h }

/-- Statements are read to their end, if the budget is above the number of tokens. -/
theorem statements_ok (h : c.rest.length < n) :
    ∃ body c', (statements n).run.run c = (.ok body, c') := by
  induction n generalizing c with
  | zero => cases h
  | succ n ih =>
    obtain ⟨⟨body, more⟩, c1, ts, hrun, hmoves, hne, -⟩ :=
      statementsRound_moves (givesStatements n) c
    rw [statements_eq_rounds, run_bind_ok hrun]
    cases more with
    | false => exact ⟨body, c1, rfl⟩
    | true =>
      have hlt := hmoves.length_lt (hne rfl)
      obtain ⟨rest, c2, hrun'⟩ := ih (c := c1) (by omega)
      exact ⟨body ++ rest, c2, run_andThen hrun'⟩

/-- A round of reading a text passes over a token, or it is the last one: then the end is reached, or
there are too many faults. -/
theorem bodyRound_moves (c : Cursor) :
    ∃ read c' ts, bodyRound.run.run c = (.ok read, c') ∧ c.Moves False 1 ts c' ∧
      (read.2 = true → ts ≠ []) ∧
      (read.2 = false → c'.rest = [] ∨ maxSyntaxErrors ≤ c'.errors.length) ∧
      ∀ s ∈ read.1, Clause WrittenStmt ts s := by
  obtain ⟨body, c1, hrun⟩ := statements_ok (n := budgetFor c.rest.length) (c := c)
    (by rw [budgetFor]; omega)
  have hends := (givesStatements (budgetFor c.rest.length)).statements c
  rw [hrun] at hends
  obtain ⟨ts, hmoves, hbody⟩ := hends
  have hmoves := hmoves.weaken (show _ → False by rw [budgetFor]; omega)
  rw [bodyRound, run_bind_ok (looks_budget c.rest c rfl), run_bind_ok hrun]
  change ∃ read c' ts, (if (c1.rest.isEmpty ||
    decide (maxSyntaxErrors ≤ c1.errors.length)) = true then _ else _ :
      Reader (List Stmt × Bool)).run.run c1 = _ ∧ _
  split
  next hend =>
    simp only [Bool.or_eq_true, decide_eq_true_eq, List.isEmpty_iff] at hend
    exact ⟨_, c1, ts, rfl, hmoves, by simp, fun _ => hend, hbody⟩
  next hgo =>
    simp only [Bool.or_eq_true, decide_eq_true_eq, not_or, List.isEmpty_iff, Nat.not_le] at hgo
    obtain ⟨e, hunexpected, he, hdeep⟩ : ∃ e, (unexpected "a statement").run.run c1 = (.ok e, c1) ∧
      e.position = c1.position ∧ (e.fault = .tooDeep → False) := ⟨_, rfl, rfl, by simp⟩
    obtain ⟨c2, hadvance, hmoves1⟩ := advance_moves { c1 with errors := c1.errors ++ [e] }
    have hrecord : (recordError e).run.run c1 =
      (.ok (), { c1 with errors := c1.errors ++ [e] }) := rfl
    rw [run_bind_ok hunexpected, run_bind_ok hrecord, run_bind_ok hadvance]
    refine ⟨_, c2, _, rfl, (hmoves.trans ((Cursor.Moves.refl c1).record he hdeep hgo.2)).trans
      (hmoves1.mono (Nat.zero_le 1)), ?_, by simp, fun s hs => (hbody s hs).within (by simp)⟩
    simp [hgo.1]

/-- Rounds above the number of tokens are enough for a whole text. -/
theorem bodyStatements_moves (h : c.rest.length < n) :
    ∃ body c' ts, (bodyStatements n).run.run c = (.ok body, c') ∧ c.Moves False 1 ts c' ∧
      (∀ s ∈ body, Clause WrittenStmt ts s) ∧ (c'.rest = [] ∨ maxSyntaxErrors ≤ c'.errors.length) := by
  induction n generalizing c with
  | zero => cases h
  | succ n ih =>
    obtain ⟨⟨body, more⟩, c1, ts, hrun, hmoves, hne, hlast, hbody⟩ := bodyRound_moves c
    rw [bodyStatements_eq_rounds, run_bind_ok hrun]
    cases more with
    | false => exact ⟨body, c1, ts, rfl, hmoves, hbody, hlast rfl⟩
    | true =>
      have hlt := hmoves.length_lt (hne rfl)
      obtain ⟨more, c2, ts', hrun', hmoves', hmore, hend⟩ := ih (c := c1) (by omega)
      refine ⟨body ++ more, c2, ts ++ ts', run_andThen hrun', hmoves.trans hmoves', fun s hs => ?_, hend⟩
      rcases List.mem_append.1 hs with hs | hs
      · exact (hbody s hs).within (by simp)
      · exact (hmore s hs).within (by simp)

/-- A whole text is always read to some body. -/
theorem wholeBody_moves (tokens : List Lexed) :
    ∃ start body c ts, wholeBody.run.run (Cursor.ofTokens tokens) =
        (.ok (.block (start.merge (Cursor.ofTokens tokens).stop) body []), c) ∧
      (∀ t ∈ tokens.head?, start = t.span) ∧ (tokens = [] → start = Span.zero) ∧
      (Cursor.ofTokens tokens).Moves False 1 ts c ∧ ∀ s ∈ body, Clause WrittenStmt ts s := by
  obtain ⟨body, c, ts, hrun, hmoves, hbody, -⟩ :=
    bodyStatements_moves (n := budgetFor tokens.length) (c := Cursor.ofTokens tokens)
      (show tokens.length < _ by rw [budgetFor]; omega)
  have hwhole (start : Span) (hspan : peekSpan.run.run (Cursor.ofTokens tokens) =
      (.ok start, Cursor.ofTokens tokens)) : wholeBody.run.run (Cursor.ofTokens tokens) =
        (.ok (.block (start.merge (Cursor.ofTokens tokens).stop) body []), c) := by
    rw [wholeBody, run_bind_ok hspan, run_bind_ok (looks_budget tokens _ rfl), run_bind_ok hrun,
      ← hmoves.stop]
    rfl
  cases tokens with
  | nil => exact ⟨_, body, c, ts, hwhole _ rfl, by simp, fun _ => rfl, hmoves, hbody⟩
  | cons t rest => exact ⟨_, body, c, ts, hwhole t.span rfl, by simp, by simp, hmoves, hbody⟩

end Statements

end Reader

/-! ## Whole texts -/

theorem readTokens_ok {α : Type} {reader : Reader α} {a : α} (h : readTokens reader text = .ok a) :
    ∃ tokens c, scan text = .ok tokens ∧ reader.run.run (Cursor.ofTokens tokens) = (.ok a, c) := by
  unfold readTokens at h
  split at h
  · cases h
  next tokens hscan =>
    split at h
    · cases h
    next c hrun =>
      split at h
      · cases h
        exact ⟨tokens, c, hscan, hrun⟩
      · cases h

theorem wholeExpression_brings :
    Reader.Brings Reader.wholeExpression fun ts rest e => rest = [] ∧ Phrase 0 ts e := by
  refine fun _ => .read Reader.expression_brings fun ts rest e he =>
    .look (a := rest.isEmpty) (by rintro c rfl; rfl) ?_
  split
  next hempty => exact .pure ⟨List.isEmpty_iff.1 hempty, by simpa using he⟩
  next => exact .unexpected

/-- An expression is read from all tokens of its text. -/
theorem parseExpression_phrase (h : parseExpression text = .ok e) :
    ∃ tokens, scan text = .ok tokens ∧ Phrase 0 tokens e := by
  obtain ⟨tokens, c, hscan, hrun⟩ := readTokens_ok h
  have hends := wholeExpression_brings tokens (Cursor.ofTokens tokens) rfl (by simp)
  rw [hrun] at hends
  obtain ⟨ts, hmoves, hrest, hphrase⟩ := hends
  have htokens : tokens = ts ++ c.rest := hmoves.rest
  rw [hrest, List.append_nil] at htokens
  exact ⟨tokens, hscan, by simpa [htokens] using hphrase⟩

theorem parseExpression_written (h : parseExpression text = .ok e) : Written e := by
  obtain ⟨tokens, -, hphrase⟩ := parseExpression_phrase h
  exact hphrase.written

theorem parseBody_written {s : Stmt} (h : parseBody text = .ok s) : WrittenStmt s := by
  obtain ⟨tokens, c, -, hrun⟩ := readTokens_ok h
  obtain ⟨start, body, c', ts, hwhole, -, -, -, hbody⟩ := Reader.wholeBody_moves tokens
  rw [hrun] at hwhole
  cases hwhole
  exact .block fun s hs => (hbody s hs).1

end ActorScript
