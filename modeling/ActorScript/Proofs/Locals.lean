import ActorScript.Stmt

/-! # Parts, variables and jumps of trees

The nodes of an expression, the variables that it mentions, and what a statement does to the
variables of the block around it: which ones it declares, from which range of numbers it takes
them, and whether those that it mentions have been declared before, in the order of the code.
-/

namespace ActorScript

namespace Expr

def children : Expr → List Expr
  | .member _ e _ | .explicitCast _ e _ | .typeCast _ e _ _ | .cast _ _ e | .intCast _ e _
  | .classCast _ e _ | .unary _ _ e | .storage _ _ e | .step _ _ _ e | .field _ e _ _
  | .floatFn _ _ e | .random2 _ _ e _ | .abs _ e | .runtimeState _ e _ => [e]
  | .assign _ a b | .binary _ _ a b | .logical _ _ a b | .element _ a b | .random _ _ _ a b _
  | .atan2 _ a b => [a, b]
  | .conditional _ c a b => [c, a, b]
  | .memberCall _ object _ args => object :: args
  | .invoke _ object _ args _ => object.toList ++ args
  | .call _ _ _ args | .special _ _ args _ | .randomPick _ _ _ args | .extremum _ _ args => args
  | _ => []

@[simp] theorem children_withMark (m : Mark) (e : Expr) :
    (e.withMark m).children = e.children := by
  cases e <;> rfl

@[simp] theorem mark_withMark (m : Mark) (e : Expr) : (e.withMark m).mark = m := by
  cases e <;> rfl

/-- A node of a tree. -/
inductive Part : Expr → Expr → Prop
  | root {e : Expr} : Part e e
  | operand {e child node : Expr} : child ∈ e.children → Part child node → Part e node

def Every (P : Expr → Prop) (e : Expr) : Prop :=
  ∀ node, e.Part node → P node

theorem every_iff {P : Expr → Prop} {e : Expr} :
    e.Every P ↔ P e ∧ ∀ x ∈ e.children, x.Every P := by
  constructor
  · intro h
    exact ⟨h e .root, fun x hx node hnode => h node (.operand hx hnode)⟩
  · rintro ⟨hroot, hchildren⟩ node hnode
    cases hnode with
    | root => exact hroot
    | operand hx hnode => exact hchildren _ hx node hnode

theorem sizeOf_lt_of_mem {e x : Expr} (h : x ∈ e.children) : sizeOf x < sizeOf e := by
  cases e with
  | invoke m object f args tail =>
    rcases List.mem_append.1 h with h | h
    · obtain rfl := Option.mem_toList.1 h
      simp +arith
    · have := List.sizeOf_lt_of_mem h
      simp
      omega
  | call _ _ _ args | special _ _ args _ | randomPick _ _ _ args | extremum _ _ args =>
    have : sizeOf x < sizeOf args := List.sizeOf_lt_of_mem h
    simp
    omega
  | memberCall _ object _ args =>
    rcases List.mem_cons.1 h with rfl | h
    · simp +arith
    · have := List.sizeOf_lt_of_mem h
      simp
      omega
  | conditional _ a b c =>
    rcases List.mem_cons.1 h with rfl | h
    · simp +arith
    rcases List.mem_cons.1 h with rfl | h
    · simp +arith
    obtain rfl := List.mem_singleton.1 h
    simp +arith
  | assign _ a b | binary _ _ a b | logical _ _ a b | element _ a b
  | random _ _ _ a b _ | atan2 _ a b =>
    rcases List.mem_cons.1 h with rfl | h
    · simp +arith
    obtain rfl := List.mem_singleton.1 h
    simp +arith
  | constant | identifier | assigned | selfRef | localVar | stateIndex | stateLabel => cases h
  | _ =>
    obtain rfl := List.mem_singleton.1 h
    simp +arith

/-- What holds of a node if it holds of its operands holds of every tree. -/
@[elab_as_elim]
theorem induct {P : Expr → Prop} (h : ∀ e, (∀ x ∈ e.children, P x) → P e) (e : Expr) : P e :=
  h e fun x hx =>
    have := sizeOf_lt_of_mem hx
    induct h x
termination_by sizeOf e

def Mentions (e : Expr) (id : LocalId) : Prop :=
  ∃ m, e.Part (.localVar m id)

end Expr

namespace Stmt

def children : Stmt → List Stmt
  | .sequence _ body | .block _ body _ => body
  | .branch _ _ whenTrue whenFalse => whenTrue.toList ++ whenFalse.toList
  | .whileLoop _ _ body | .doWhile _ body _ => [body]
  | .forLoop _ first _ step body => first.toList ++ (step.toList ++ [body])
  | _ => []

def exprs : Stmt → List Expr
  | .expr _ e | .branch _ e _ _ | .whileLoop _ e _ | .doWhile _ _ e => [e]
  | .forLoop _ _ e _ _ | .ret _ e | .declare _ _ _ e _ => e.toList
  | _ => []

inductive Part : Stmt → Stmt → Prop
  | root {s : Stmt} : Part s s
  | inside {s child node : Stmt} : child ∈ s.children → Part child node → Part s node

def Every (P : Stmt → Prop) (s : Stmt) : Prop :=
  ∀ node, s.Part node → P node

theorem every_iff {P : Stmt → Prop} {s : Stmt} :
    s.Every P ↔ P s ∧ ∀ x ∈ s.children, x.Every P := by
  constructor
  · intro h
    exact ⟨h s .root, fun x hx node hnode => h node (.inside hx hnode)⟩
  · rintro ⟨hroot, hchildren⟩ node hnode
    cases hnode with
    | root => exact hroot
    | inside hx hnode => exact hchildren _ hx node hnode

theorem sizeOf_lt_of_mem {s x : Stmt} (h : x ∈ s.children) : sizeOf x < sizeOf s := by
  cases s with
  | sequence _ body | block _ body _ =>
    have : sizeOf x < sizeOf body := List.sizeOf_lt_of_mem h
    simp
    omega
  | branch _ _ a b =>
    rcases List.mem_append.1 h with h | h <;> obtain rfl := Option.mem_toList.1 h
    all_goals simp +arith
  | forLoop _ a _ b c =>
    rcases List.mem_append.1 h with h | h
    · obtain rfl := Option.mem_toList.1 h
      simp +arith
    rcases List.mem_append.1 h with h | h
    · obtain rfl := Option.mem_toList.1 h
      simp +arith
    · obtain rfl := List.mem_singleton.1 h
      simp +arith
  | whileLoop _ _ body | doWhile _ body _ =>
    obtain rfl := List.mem_singleton.1 h
    simp +arith
  | nop | expr | jump | ret | declare => cases h

/-- What holds of a statement if it holds of those in it holds of every statement. -/
@[elab_as_elim]
theorem induct {P : Stmt → Prop} (h : ∀ s, (∀ x ∈ s.children, P x) → P s) (s : Stmt) : P s :=
  h s fun x hx =>
    have := sizeOf_lt_of_mem hx
    induct h x
termination_by sizeOf s

mutual

/-- The variables that a statement declares in the block around it. -/
@[simp] def declares : Stmt → List LocalId
  | .sequence _ body => declaresAll body
  | .branch _ _ whenTrue whenFalse => declaresOf whenTrue ++ declaresOf whenFalse
  | .whileLoop _ _ body | .doWhile _ body _ => body.declares
  | .forLoop _ first _ step body => declaresOf first ++ (body.declares ++ declaresOf step)
  | .declare _ _ _ _ id => id.toList
  | _ => []

@[simp] def declaresAll : List Stmt → List LocalId
  | [] => []
  | s :: rest => s.declares ++ declaresAll rest

@[simp] def declaresOf : Option Stmt → List LocalId
  | none => []
  | some s => s.declares

end

mutual

/-- The number of jumps to a loop around the statement. -/
@[simp] def freeJumps : Stmt → Nat
  | .sequence _ body | .block _ body _ => freeJumpsAll body
  | .branch _ _ whenTrue whenFalse => freeJumpsOf whenTrue + freeJumpsOf whenFalse
  | .forLoop _ first _ step _ => freeJumpsOf first + freeJumpsOf step
  | .jump _ _ => 1
  | _ => 0

@[simp] def freeJumpsAll : List Stmt → Nat
  | [] => 0
  | s :: rest => s.freeJumps + freeJumpsAll rest

@[simp] def freeJumpsOf : Option Stmt → Nat
  | none => 0
  | some s => s.freeJumps

end

mutual

/-- The numbers of the variables declared in a statement are from `lo` to below `hi`, and those
of its later parts are beyond those of its earlier ones. A block has in its list the variables
that its statements declare, and no others from outside that range. -/
@[simp] def Allots : Stmt → Nat → Nat → Prop
  | .sequence _ body, lo, hi => AllotsAll body lo hi
  | .block _ body locals, lo, hi =>
      AllotsAll body lo hi ∧ (∀ v ∈ declaresAll body, v ∈ locals) ∧
        ∀ v ∈ locals, lo ≤ v ∧ v < hi
  | .branch _ _ whenTrue whenFalse, lo, hi =>
      ∃ mid, AllotsOf whenTrue lo mid ∧ AllotsOf whenFalse mid hi
  | .whileLoop _ _ body, lo, hi | .doWhile _ body _, lo, hi => body.Allots lo hi
  | .forLoop _ first _ step body, lo, hi =>
      ∃ a b, AllotsOf first lo a ∧ AllotsOf step a b ∧ body.Allots b hi
  | .declare _ _ _ _ id, lo, hi => lo ≤ hi ∧ ∀ v ∈ id, lo ≤ v ∧ v < hi
  | _, lo, hi => lo ≤ hi

@[simp] def AllotsAll : List Stmt → Nat → Nat → Prop
  | [], lo, hi => lo ≤ hi
  | s :: rest, lo, hi => ∃ mid, s.Allots lo mid ∧ AllotsAll rest mid hi

@[simp] def AllotsOf : Option Stmt → Nat → Nat → Prop
  | none, lo, hi => lo ≤ hi
  | some s, lo, hi => s.Allots lo hi

end

mutual

/-- Every variable in the list of a block is declared by a statement of the block. Where a
declaration is dropped with a branch that is never taken, the variable stays in the list. -/
@[simp] def complete : Stmt → Bool
  | .sequence _ body => completeAll body
  | .block _ body locals => locals.all (declaresAll body).contains && completeAll body
  | .branch _ _ whenTrue whenFalse => completeOf whenTrue && completeOf whenFalse
  | .whileLoop _ _ body | .doWhile _ body _ => body.complete
  | .forLoop _ first _ step body => completeOf first && completeOf step && body.complete
  | _ => true

@[simp] def completeAll : List Stmt → Bool
  | [] => true
  | s :: rest => s.complete && completeAll rest

@[simp] def completeOf : Option Stmt → Bool
  | none => true
  | some s => s.complete

end

mutual

/-- With the variables in `bound` declared before, every variable mentioned is declared earlier
in the order of the code. -/
@[simp] def Supplied : Stmt → List LocalId → Prop
  | .nop _, _ | .jump _ _, _ => True
  | .expr _ value, bound => ∀ v, value.Mentions v → v ∈ bound
  | .sequence _ body, bound | .block _ body _, bound => SuppliedAll body bound
  | .branch _ cond whenTrue whenFalse, bound =>
      (∀ v, cond.Mentions v → v ∈ bound) ∧ SuppliedOf whenTrue bound ∧
        SuppliedOf whenFalse (bound ++ declaresOf whenTrue)
  | .whileLoop _ cond body, bound => (∀ v, cond.Mentions v → v ∈ bound) ∧ body.Supplied bound
  | .doWhile _ body cond, bound =>
      body.Supplied bound ∧ ∀ v, cond.Mentions v → v ∈ bound ++ body.declares
  | .forLoop _ first cond step body, bound =>
      SuppliedOf first bound ∧
        (∀ e ∈ cond, ∀ v, e.Mentions v → v ∈ bound ++ declaresOf first) ∧
        body.Supplied (bound ++ declaresOf first) ∧
        SuppliedOf step (bound ++ declaresOf first ++ body.declares)
  | .ret _ value, bound | .declare _ _ _ value _, bound =>
      ∀ e ∈ value, ∀ v, e.Mentions v → v ∈ bound

@[simp] def SuppliedAll : List Stmt → List LocalId → Prop
  | [], _ => True
  | s :: rest, bound => s.Supplied bound ∧ SuppliedAll rest (bound ++ s.declares)

@[simp] def SuppliedOf : Option Stmt → List LocalId → Prop
  | none, _ => True
  | some s, bound => s.Supplied bound

end

/-! ## Wider ranges and more variables -/

mutual

theorem Allots.mono {x : Stmt} {lo hi lo' hi' : Nat} (h : x.Allots lo hi) (hl : lo' ≤ lo)
    (hh : hi ≤ hi') : x.Allots lo' hi' := by
  match x, h with
  | .nop _, h | .expr _ _, h | .jump _ _, h | .ret _ _, h => exact Nat.le_trans hl (Nat.le_trans h hh)
  | .sequence _ _, h => exact AllotsAll.mono h hl hh
  | .block _ _ _, ⟨hbody, hdeclares, hlocals⟩ =>
    refine ⟨AllotsAll.mono hbody hl hh, hdeclares, fun v hv => ?_⟩
    exact ⟨Nat.le_trans hl (hlocals v hv).1, Nat.lt_of_lt_of_le (hlocals v hv).2 hh⟩
  | .branch _ _ _ _, ⟨mid, ht, hf⟩ =>
    exact ⟨mid, AllotsOf.mono ht hl (Nat.le_refl _), AllotsOf.mono hf (Nat.le_refl _) hh⟩
  | .whileLoop _ _ body, h | .doWhile _ body _, h => exact Allots.mono (x := body) h hl hh
  | .forLoop _ _ _ _ body, ⟨a, b, hfirst, hstep, hbody⟩ =>
    exact ⟨a, b, AllotsOf.mono hfirst hl (Nat.le_refl _), hstep,
      Allots.mono hbody (Nat.le_refl _) hh⟩
  | .declare _ _ _ _ _, ⟨hle, hid⟩ =>
    refine ⟨Nat.le_trans hl (Nat.le_trans hle hh), fun v hv => ?_⟩
    exact ⟨Nat.le_trans hl (hid v hv).1, Nat.lt_of_lt_of_le (hid v hv).2 hh⟩

theorem AllotsAll.mono {body : List Stmt} {lo hi lo' hi' : Nat} (h : AllotsAll body lo hi)
    (hl : lo' ≤ lo) (hh : hi ≤ hi') : AllotsAll body lo' hi' := by
  match body, h with
  | [], h => exact Nat.le_trans hl (Nat.le_trans h hh)
  | _ :: _, ⟨mid, hs, hrest⟩ =>
    exact ⟨mid, Allots.mono hs hl (Nat.le_refl _), AllotsAll.mono hrest (Nat.le_refl _) hh⟩

theorem AllotsOf.mono {x : Option Stmt} {lo hi lo' hi' : Nat} (h : AllotsOf x lo hi)
    (hl : lo' ≤ lo) (hh : hi ≤ hi') : AllotsOf x lo' hi' := by
  match x, h with
  | none, h => exact Nat.le_trans hl (Nat.le_trans h hh)
  | some _, h => exact Allots.mono (by simpa [AllotsOf] using h) hl hh

end

mutual

theorem Allots.le {x : Stmt} {lo hi : Nat} (h : x.Allots lo hi) : lo ≤ hi := by
  match x, h with
  | .nop _, h | .expr _ _, h | .jump _ _, h | .ret _ _, h => exact h
  | .sequence _ _, h => exact AllotsAll.le h
  | .block _ _ _, ⟨hbody, _, _⟩ => exact AllotsAll.le hbody
  | .branch _ _ _ _, ⟨_, ht, hf⟩ => exact Nat.le_trans (AllotsOf.le ht) (AllotsOf.le hf)
  | .whileLoop _ _ body, h | .doWhile _ body _, h => exact Allots.le (x := body) h
  | .forLoop _ _ _ _ _, ⟨_, _, hfirst, hstep, hbody⟩ =>
    exact Nat.le_trans (AllotsOf.le hfirst) (Nat.le_trans (AllotsOf.le hstep) (Allots.le hbody))
  | .declare _ _ _ _ _, ⟨hle, _⟩ => exact hle

theorem AllotsAll.le {body : List Stmt} {lo hi : Nat} (h : AllotsAll body lo hi) : lo ≤ hi := by
  match body, h with
  | [], h => exact h
  | _ :: _, ⟨_, hs, hrest⟩ => exact Nat.le_trans (Allots.le hs) (AllotsAll.le hrest)

theorem AllotsOf.le {x : Option Stmt} {lo hi : Nat} (h : AllotsOf x lo hi) : lo ≤ hi := by
  match x, h with
  | none, h => exact h
  | some _, h => exact Allots.le (by simpa [AllotsOf] using h)

end

theorem AllotsAll.mem {body : List Stmt} {lo hi : Nat} (h : AllotsAll body lo hi) {y : Stmt}
    (hy : y ∈ body) : y.Allots lo hi := by
  induction body generalizing lo with
  | nil => cases hy
  | cons s rest ih =>
    obtain ⟨mid, hs, hrest⟩ := h
    rcases List.mem_cons.1 hy with rfl | hy
    · exact hs.mono (Nat.le_refl _) hrest.le
    · exact (ih hrest hy).mono hs.le (Nat.le_refl _)

theorem Allots.child {x y : Stmt} {lo hi : Nat} (h : x.Allots lo hi) (hy : y ∈ x.children) :
    y.Allots lo hi := by
  cases x with
  | sequence => exact AllotsAll.mem h hy
  | block => exact AllotsAll.mem h.1 hy
  | branch _ _ whenTrue whenFalse =>
    obtain ⟨mid, ht, hf⟩ := h
    rcases List.mem_append.1 hy with hy | hy
    · obtain rfl := Option.mem_toList.1 hy
      exact Allots.mono ht (Nat.le_refl _) hf.le
    · obtain rfl := Option.mem_toList.1 hy
      exact Allots.mono hf ht.le (Nat.le_refl _)
  | whileLoop | doWhile =>
    obtain rfl := List.mem_singleton.1 hy
    exact h
  | forLoop =>
    obtain ⟨a, b, hfirst, hstep, hbody⟩ := h
    have := hfirst.le
    have := hstep.le
    have := hbody.le
    rcases List.mem_append.1 hy with hy | hy
    · obtain rfl := Option.mem_toList.1 hy
      exact Allots.mono hfirst (by omega) (by omega)
    rcases List.mem_append.1 hy with hy | hy
    · obtain rfl := Option.mem_toList.1 hy
      exact Allots.mono hstep (by omega) (by omega)
    · obtain rfl := List.mem_singleton.1 hy
      exact hbody.mono (by omega) (by omega)
  | nop | expr | jump | ret | declare => cases hy

mutual

theorem Supplied.mono {x : Stmt} {bound bound' : List LocalId} (h : x.Supplied bound)
    (hb : ∀ v ∈ bound, v ∈ bound') : x.Supplied bound' := by
  match x, h with
  | .nop _, _ | .jump _ _, _ => trivial
  | .expr _ _, h => exact fun v hv => hb v (h v hv)
  | .sequence _ _, h | .block _ _ _, h => exact SuppliedAll.mono h hb
  | .branch _ _ _ _, ⟨hc, ht, hf⟩ =>
    exact ⟨fun v hv => hb v (hc v hv), SuppliedOf.mono ht hb, SuppliedOf.mono hf (by grind)⟩
  | .whileLoop _ _ _, ⟨hc, hbody⟩ => exact ⟨fun v hv => hb v (hc v hv), Supplied.mono hbody hb⟩
  | .doWhile _ _ _, ⟨hbody, hc⟩ =>
    exact ⟨Supplied.mono hbody hb, fun v hv => by have := hc v hv; grind⟩
  | .forLoop _ _ _ _ _, ⟨hfirst, hc, hbody, hstep⟩ =>
    exact ⟨SuppliedOf.mono hfirst hb, fun e he v hv => by have := hc e he v hv; grind,
      Supplied.mono hbody (by grind), SuppliedOf.mono hstep (by grind)⟩
  | .ret _ _, h | .declare _ _ _ _ _, h => exact fun e he v hv => hb v (h e he v hv)

theorem SuppliedAll.mono {body : List Stmt} {bound bound' : List LocalId}
    (h : SuppliedAll body bound) (hb : ∀ v ∈ bound, v ∈ bound') : SuppliedAll body bound' := by
  match body, h with
  | [], _ => trivial
  | _ :: _, ⟨hs, hrest⟩ => exact ⟨Supplied.mono hs hb, SuppliedAll.mono hrest (by grind)⟩

theorem SuppliedOf.mono {x : Option Stmt} {bound bound' : List LocalId} (h : SuppliedOf x bound)
    (hb : ∀ v ∈ bound, v ∈ bound') : SuppliedOf x bound' := by
  match x, h with
  | none, _ => trivial
  | some _, h => exact Supplied.mono (by simpa [SuppliedOf] using h) hb

end

end Stmt

end ActorScript
