import ActorScript.Proofs.Grammar.Phrases
import ActorScript.Proofs.Locals
import ActorScript.Proofs.Scanning

/-! # Spans of trees

The span of a tree that was read reaches from its first token to its last one, and the spans of
its parts lie in it.
-/

namespace ActorScript

open Reader

variable {ts ts' : List Lexed} {span start : Span} {e : Expr}

/-! ## Spans of tokens -/

def Span.Covers (outer inner : Span) : Prop :=
  outer.start ≤ inner.start ∧ inner.stop ≤ outer.stop

/-- A span from the start of a token up to the end of one. -/
structure Span.Bounded (ts : List Lexed) (span : Span) : Prop where
  le : span.start ≤ span.stop
  starts : ∃ t ∈ ts, t.span.start = span.start
  stops : ∃ t ∈ ts, t.span.stop = span.stop

/-- The least span that covers some tokens. -/
structure Hull (ts : List Lexed) (span : Span) : Prop extends span.Bounded ts where
  covers : ∀ t ∈ ts, span.Covers t.span

theorem InOrder.sublist (h : InOrder ts) (hsub : ts'.Sublist ts) : InOrder ts' :=
  ⟨fun t ht => h.filled t (hsub.subset ht), h.apart.sublist hsub⟩

/-- The tokens are read in the order of the text, if those that are ahead are in that order. -/
def Spanned (ts : List Lexed) (span : Span) : Prop :=
  InOrder ts → Hull ts span

theorem spanned_token (t : Lexed) : Spanned [t] t.span :=
  fun h => ⟨⟨Nat.le_of_lt (h.filled t (by simp)), by simp, by simp⟩, by simp [Span.Covers]⟩

/-- Of tokens in order, the first and the last ones are enough. -/
theorem Spanned.merge {a b : List Lexed} {span' : Span} (ha : Spanned a span) (hb : Spanned b span')
    (mid : List Lexed) : Spanned (a ++ (mid ++ b)) (span.merge span') := by
  intro hordered
  have ha := ha (hordered.sublist (by grind))
  have hb := hb (hordered.sublist (by grind))
  obtain ⟨first, hfirst, hstart⟩ := ha.starts
  obtain ⟨last, hlast, hstop⟩ := hb.stops
  have hbefore (t : Lexed) (ht : t ∈ mid ++ b) : first.span.stop ≤ t.span.start :=
    (List.pairwise_append.1 hordered.apart).2.2 first hfirst t ht
  have hbehind (t : Lexed) (ht : t ∈ a ++ mid) : t.span.stop ≤ last.span.start := by
    have hapart := hordered.apart
    rw [← List.append_assoc] at hapart
    exact (List.pairwise_append.1 hapart).2.2 t ht last hlast
  have hfilled := hordered.filled first (by simp [hfirst])
  have hfilled' := hordered.filled last (by simp [hlast])
  have hmerge : span.merge span' = ⟨first.span.start, last.span.stop⟩ := by
    obtain ⟨t, ht, hts⟩ := ha.stops
    obtain ⟨t', ht', hts'⟩ := hb.starts
    have := hbefore t' (by simp [ht'])
    have := hbehind t (by simp [ht])
    have := (hb.covers last hlast).1
    simp only [Span.merge, Span.mk.injEq]
    omega
  rw [hmerge]
  refine ⟨⟨?_, ⟨first, by simp [hfirst], rfl⟩, last, by simp [hlast], rfl⟩, fun t ht => ?_⟩
  · have := hbefore last (by simp [hlast])
    simp only
    omega
  · have hfill := hordered.filled t ht
    simp only [List.mem_append] at ht
    constructor
    · rcases ht with ht | ht
      · exact Nat.le_trans (Nat.le_of_eq hstart) (ha.covers t ht).1
      · have := hbefore t (by simpa using ht)
        simp only
        omega
    · rcases ht with ht | ht | ht
      · have := hbehind t (by simp [ht])
        simp only
        omega
      · have := hbehind t (by simp [ht])
        simp only
        omega
      · exact Nat.le_trans (hb.covers t ht).2 (Nat.le_of_eq hstop.symm)

/-! ## Spans of expressions -/

/-- Every node has a span as said, which covers the spans of its operands. -/
def Expr.SpansNest (P : Span → Prop) (e : Expr) : Prop :=
  e.Every fun x => P x.span ∧ ∀ y ∈ x.children, x.span.Covers y.span

/-- A tree whose span is that of some tokens, with all its nodes at them. -/
structure Expr.Lies (ts : List Lexed) (e : Expr) : Prop where
  span : Spanned ts e.span
  nests : InOrder ts → e.SpansNest (·.Bounded ts)

/-- What is bounded by some tokens is bounded by more. -/
theorem Span.Bounded.sublist (h : span.Bounded ts') (hsub : ts'.Sublist ts) : span.Bounded ts := by
  obtain ⟨t, ht, hstart⟩ := h.starts
  obtain ⟨t', ht', hstop⟩ := h.stops
  exact ⟨h.le, ⟨t, hsub.subset ht, hstart⟩, t', hsub.subset ht', hstop⟩

theorem Hull.covers_of_sublist {span' : Span} (h : Hull ts span) (h' : Hull ts' span')
    (hsub : ts'.Sublist ts) : span.Covers span' := by
  obtain ⟨t, ht, hstart⟩ := h'.starts
  obtain ⟨t', ht', hstop⟩ := h'.stops
  exact ⟨hstart ▸ (h.covers t (hsub.subset ht)).1, hstop ▸ (h.covers t' (hsub.subset ht')).2⟩

theorem Expr.SpansNest.mono {P P' : Span → Prop} (h : e.SpansNest P)
    (himp : ∀ span, P span → P' span) : e.SpansNest P' :=
  fun x hx => ⟨himp _ (h x hx).1, (h x hx).2⟩

theorem Expr.Lies.node (hspan : Spanned ts e.span)
    (hchildren : ∀ x ∈ e.children, ∃ own, own.Sublist ts ∧ x.Lies own) : e.Lies ts := by
  refine ⟨hspan, fun hordered => Expr.every_iff.2
    ⟨⟨(hspan hordered).toBounded, fun x hx => ?_⟩, fun x hx => ?_⟩⟩
  · obtain ⟨own, hsub, hlies⟩ := hchildren x hx
    exact (hspan hordered).covers_of_sublist (hlies.span (hordered.sublist hsub)) hsub
  · obtain ⟨own, hsub, hlies⟩ := hchildren x hx
    exact (hlies.nests (hordered.sublist hsub)).mono fun _ h => h.sublist hsub

theorem Expr.Lies.withSpan (h : e.Lies ts) (hspan : Spanned ts' span) (hsub : ts.Sublist ts') :
    (e.withSpan span).Lies ts' := by
  have hself : (e.withSpan span).span = span := by simp [Expr.withSpan, Expr.span]
  refine ⟨by rwa [hself], fun hordered => Expr.every_iff.2 ?_⟩
  have hin := hordered.sublist hsub
  obtain ⟨⟨-, hcovers⟩, hnests⟩ := Expr.every_iff.1 (h.nests hin)
  have houter := (hspan hordered).covers_of_sublist (h.span hin) hsub
  rw [hself, Expr.withSpan, children_withMark]
  refine ⟨⟨(hspan hordered).toBounded, fun x hx => ?_⟩, fun x hx => ?_⟩
  · exact ⟨Nat.le_trans houter.1 (hcovers x hx).1, Nat.le_trans (hcovers x hx).2 houter.2⟩
  · exact Expr.SpansNest.mono (hnests x hx) fun _ h => h.sublist hsub

theorem Joined.sublist {parts : List (List Lexed)} {own : List Lexed} (h : Joined parts ts)
    (hown : own ∈ parts) : own.Sublist ts := by
  induction h with
  | nil => cases hown
  | one => simp_all
  | more _ ih => grind

theorem Phrase.lies {place : Nat} (h : Phrase place ts e) : e.Lies ts := by
  have each {parts : List (List Lexed × Expr)} {inner ts : List Lexed}
      (hjoined : Joined (parts.map Prod.fst) inner) (hsub : inner.Sublist ts)
      (h : ∀ p ∈ parts, p.2.Lies p.1) :
      ∀ x ∈ parts.map Prod.snd, ∃ own, own.Sublist ts ∧ x.Lies own := by
    intro x hx
    obtain ⟨p, hp, rfl⟩ := List.mem_map.1 hx
    exact ⟨p.1, (hjoined.sublist (List.mem_map_of_mem hp)).trans hsub, h p hp⟩
  have token := spanned_token
  induction h with
  | looser _ _ ih => exact ih
  | constant | selfRef | identifier => exact .node (token _) nofun
  | @parens o c ts e _ ih =>
    exact ih.withSpan ((token o).merge (token c) ts) (by grind)
  | @call _ o _ inner _ _ _ hjoined _ ih =>
    exact .node ((token _).merge (token _) (o :: inner)) (each hjoined (by grind) ih)
  | @callWith _ o r c o' _ inner _ _ _ hjoined _ ih =>
    exact .node ((token _).merge (token _) (o :: r :: c :: o' :: inner))
      (each hjoined (by grind) ih)
  | @cast _ o _ ts _ _ _ _ ih =>
    exact .node ((token _).merge (token _) (o :: ts))
      (by simpa [Expr.children] using ⟨_, by grind, ih⟩)
  | @classCast _ o n c o' _ ts _ _ _ ih =>
    exact .node ((token _).merge (token _) (o :: n :: c :: o' :: ts))
      (by simpa [Expr.children] using ⟨_, by grind, ih⟩)
  | @member d _ _ _ _ _ ih =>
    exact .node (ih.span.merge (token _) [d]) (by simpa [Expr.children] using ⟨_, by grind, ih⟩)
  | @memberCall d n o _ _ inner _ _ _ _ hjoined _ ih ihs =>
    refine .node (ih.span.merge (token _) (d :: n :: o :: inner)) ?_
    simpa [Expr.children] using ⟨⟨_, by grind, ih⟩, by simpa using each hjoined (by grind) ihs⟩
  | @element o _ _ ts' _ _ _ _ ih ihi =>
    exact .node (ih.span.merge (token _) (o :: ts'))
      (by simpa [Expr.children] using ⟨⟨_, by grind, ih⟩, _, by grind, ihi⟩)
  | stepAfter _ ih =>
    exact .node (ih.span.merge (token _) []) (by simpa [Expr.children] using ⟨_, by grind, ih⟩)
  | @raised t _ _ _ _ _ _ ihl ihr =>
    exact .node (ihl.span.merge ihr.span [t])
      (by simpa [Expr.children] using ⟨⟨_, by grind, ihl⟩, _, by grind, ihr⟩)
  | unary _ ih | stepBefore _ ih =>
    exact .node ((token _).merge ih.span []) (by simpa [Expr.children] using ⟨_, by grind, ih⟩)
  | @storage _ o _ ts _ _ _ ih =>
    exact .node ((token _).merge (token _) (o :: ts))
      (by simpa [Expr.children] using ⟨_, by grind, ih⟩)
  | @joined t _ _ op _ _ _ _ _ _ _ ihl ihr =>
    refine .node ?_ ?_
    · cases op <;> exact ihl.span.merge ihr.span [t]
    · cases op
      all_goals simpa [InfixOp.apply, Expr.children] using ⟨⟨_, by grind, ihl⟩, _, by grind, ihr⟩
  | @conditional t t' _ ts' _ _ _ _ _ _ _ ihc iht ihf =>
    have hspan := ihc.span.merge ihf.span (t :: (ts' ++ [t']))
    rw [List.cons_append, List.append_assoc] at hspan
    refine .node hspan ?_
    simpa [Expr.children] using ⟨⟨_, by grind, ihc⟩, ⟨_, by grind, iht⟩, _, by grind, ihf⟩
  | @assigned t _ op _ ts' l r _ _ _ ihl ihr =>
    cases op with
    | none =>
      exact .node (by exact ihl.span.merge ihr.span [t])
        (by simpa [assignment, Expr.children] using ⟨⟨_, by grind, ihl⟩, _, by grind, ihr⟩)
    | some op =>
      have hagain : (Expr.assigned { span := t.span }).Lies [t] := .node (token t) nofun
      have hvalue : (Expr.binary { span := t.span.merge r.span } op
          (.assigned { span := t.span }) r).Lies (t :: ts') :=
        .node ((token t).merge ihr.span [])
          (by simpa [Expr.children] using ⟨⟨_, by grind, hagain⟩, _, by grind, ihr⟩)
      exact .node (by exact ihl.span.merge ihr.span [t])
        (by simpa [assignment, Expr.children] using ⟨⟨_, by grind, ihl⟩, _, by grind, hvalue⟩)

theorem Phrase.ne_nil {place : Nat} (h : Phrase place ts e) : ts ≠ [] := by
  induction h with
  | looser _ _ ih => exact ih
  | _ => simp

/-! ## Spans of statements -/

/-- Every statement has a span as said, which covers the spans of its parts. -/
def Stmt.SpansNest (P : Span → Prop) (s : Stmt) : Prop :=
  s.Every fun x => P x.span ∧ (∀ y ∈ x.children, x.span.Covers y.span) ∧
    ∀ e ∈ x.exprs, x.span.Covers e.span ∧ e.SpansNest P

theorem Stmt.SpansNest.mono {P P' : Span → Prop} {s : Stmt} (h : s.SpansNest P)
    (himp : ∀ span, P span → P' span) : s.SpansNest P' :=
  fun x hx => ⟨himp _ (h x hx).1, (h x hx).2.1, fun e he =>
    ⟨((h x hx).2.2 e he).1, ((h x hx).2.2 e he).2.mono himp⟩⟩

/-- A statement whose span is that of some tokens, with all its parts at them. -/
structure Stmt.Lies (ts : List Lexed) (s : Stmt) : Prop where
  span : Spanned ts s.span
  nests : InOrder ts → s.SpansNest (·.Bounded ts)

theorem Stmt.Lies.node {s : Stmt} (hspan : Spanned ts s.span)
    (hchildren : ∀ x ∈ s.children, ∃ own, own.Sublist ts ∧ x.Lies own)
    (hexprs : ∀ e ∈ s.exprs, ∃ own, own.Sublist ts ∧ e.Lies own) : s.Lies ts := by
  refine ⟨hspan, fun hordered => Stmt.every_iff.2
    ⟨⟨(hspan hordered).toBounded, fun x hx => ?_, fun e he => ⟨?_, ?_⟩⟩, fun x hx => ?_⟩⟩
  · obtain ⟨own, hsub, hlies⟩ := hchildren x hx
    exact (hspan hordered).covers_of_sublist (hlies.span (hordered.sublist hsub)) hsub
  · obtain ⟨own, hsub, hlies⟩ := hexprs e he
    exact (hspan hordered).covers_of_sublist (hlies.span (hordered.sublist hsub)) hsub
  · obtain ⟨own, hsub, hlies⟩ := hexprs e he
    exact (hlies.nests (hordered.sublist hsub)).mono fun _ h => h.sublist hsub
  · obtain ⟨own, hsub, hlies⟩ := hchildren x hx
    exact Stmt.SpansNest.mono (hlies.nests (hordered.sublist hsub)) fun _ h => h.sublist hsub

/-- The tokens begin with one of that span. -/
def Opens (start : Span) (ts : List Lexed) : Prop :=
  ∃ t ∈ ts.head?, start = t.span

theorem Opens.append (h : Opens start ts) (ts' : List Lexed) : Opens start (ts ++ ts') := by
  obtain ⟨t, ht, rfl⟩ := h
  obtain ⟨rest, rfl⟩ := List.head?_eq_some_iff.1 ht
  exact ⟨t, rfl, rfl⟩

theorem Opens.ne_nil (h : Opens start ts) : ts ≠ [] := by
  rintro rfl
  obtain ⟨t, ht, -⟩ := h
  cases ht

theorem Opens.spanned {last : Lexed} (h : Opens start ts) (hlast : last ∈ ts.getLast?) :
    Spanned ts (start.merge last.span) := by
  obtain ⟨t, ht, rfl⟩ := h
  obtain ⟨rest, rfl⟩ := List.head?_eq_some_iff.1 ht
  rcases List.eq_nil_or_concat rest with rfl | ⟨mid, c, rfl⟩
  · cases hlast
    simpa [Span.merge] using spanned_token t
  · simp only [List.concat_eq_append, getLast?_cons_append, Option.mem_def, Option.some.injEq] at hlast
    subst hlast
    simpa using (spanned_token t).merge (spanned_token c) mid

theorem Reader.Reaches.sinceStart {β : Type} {short : Prop} {f : Span → Reader β} {past ahead : List Lexed}
    {Q : List Lexed → List Lexed → β → Prop} (hstart : Opens start past)
    (hf : ∀ span, Spanned past span → Reaches short (f span) past ahead Q) :
    Reaches short (Reader.since start >>= f) past ahead Q := by
  have hlast : past.getLast hstart.ne_nil ∈ past.getLast? := List.getLast?_eq_some_getLast _
  exact .since hlast (hf _ (hstart.spanned hlast))

end ActorScript
