import ActorScript.Proofs.Locals
import ActorScript.Typing.Statement

/-! # Settled trees

The banks of the parts of a tree that typing has accepted fit together: every node has the
bank that code for it leaves its value in, and its operands have the banks that it reads.
Members are those that the setting gives under their names. Statements are settled if the
expressions in them are.
-/

namespace ActorScript

/-! ## Banks of nodes -/

def Mark.bank? (m : Mark) : Option Bank :=
  (m.ty.getD .error).bank?

/-- Values of the two types are kept in the same way: in registers of the same bank, or in no
register and then as values of the same type. -/
def Ty.Agree (a b : Ty) : Prop :=
  a.bank? = b.bank? ∧ (a.bank? = none → a = b)

namespace Ty.Agree

theorem refl (a : Ty) : Agree a a :=
  ⟨rfl, fun _ => rfl⟩

theorem of_eq {a b : Ty} (h : a = b) : Agree a b :=
  h ▸ refl a

theorem of_bank {a b : Ty} {bank : Bank} (ha : a.bank? = some bank) (hb : b.bank? = some bank) :
    Agree a b :=
  ⟨ha.trans hb.symm, fun h => by simp [h] at ha⟩

theorem trans {a b c : Ty} (h : Agree a b) (h' : Agree b c) : Agree a c :=
  ⟨h.1.trans h'.1, fun hn => (h.2 hn).trans (h'.2 (h.1 ▸ hn))⟩

theorem symm {a b : Ty} (h : Agree a b) : Agree b a :=
  ⟨h.1.symm, fun hn => (h.2 (h.1 ▸ hn)).symm⟩

end Ty.Agree

def CastKind.Takes : CastKind → Bank → Prop
  | .bool, bank => bank ≠ .string
  | .float, bank | .string, bank => bank = .int
  | .name, bank | .color, bank | .sound, bank => bank = .string

def CastKind.bank : CastKind → Bank
  | .bool | .name | .color | .sound => .int
  | .float => .float
  | .string => .string

/-- Bank of the result of an operator on operands of a bank that it works on. -/
def BinOp.bank? : BinOp → Bank → Option Bank
  | .add, .int | .sub, .int | .mul, .int | .div, .int | .mod, .int => some .int
  | .add, .float | .sub, .float | .mul, .float | .div, .float | .mod, .float
  | .pow, .float => some .float
  | .lt, .int | .gt, .int | .le, .int | .ge, .int | .threeWay, .int => some .int
  | .lt, .float | .gt, .float | .le, .float | .ge, .float | .threeWay, .float => some .int
  | .eq, bank | .ne, bank | .approxEq, bank => if bank = .string then none else some .int
  | .shl, .int | .shr, .int | .ushr, .int | .bitAnd, .int | .bitOr, .int | .bitXor, .int =>
      some .int
  | _, _ => none

/-! ## Variables that trees stand for -/

namespace Expr

def localId? : Expr → Option LocalId
  | .localVar _ id => some id
  | .step _ _ true operand => operand.localId?
  | .assign _ target _ => target.localId?
  | _ => none

end Expr

/-! ## Members that trees refer to -/

/-- How the type that a value is read with may differ from its own: a value that is no pointer
is read in any way that fits its bank, and a pointer as one to an ancestor. -/
inductive World.Widens (w : World) : Ty → Ty → Prop
  | refl (a : Ty) : Widens w a a
  | plain {a b : Ty} {bank : Bank} :
      bank ≠ .pointer → a.bank? = some bank → b.bank? = some bank → Widens w a b
  | null {b : Ty} : b.isPointer = true → Widens w .nullPtr b
  | classPtr {k ancestor : ClassId} :
      w.descends k ancestor = true → Widens w (.classPtr k) (.classPtr ancestor)
  | object {k ancestor : ClassId} :
      w.descends k ancestor = true → Widens w (.object k) (.object ancestor)
  | trans {a b c : Ty} : Widens w a b → Widens w b c → Widens w a c

/-- A value is kept in the same way under each of its types. -/
theorem World.Widens.agree {w : World} {a b : Ty} (h : w.Widens a b) : Ty.Agree a b := by
  induction h with
  | refl => exact .refl _
  | plain _ ha hb => exact .of_bank ha hb
  | null hb => exact .of_bank (show Ty.nullPtr.bank? = some .pointer from rfl) (by simpa [Ty.isPointer] using hb)
  | classPtr | object => exact .of_bank rfl rfl
  | trans _ _ h h' => exact h.trans h'

namespace Setting

/-- Where a field that is read through an object was looked up. -/
inductive Sees (σ : Setting) (object : Expr) (field : Field) : Prop
  | ofObject {cls owner : ClassId} {name : String} :
      object.ty = .object cls → σ.world.findMember cls name = some (.field field, owner) →
      Sees σ object field
  /-- A field of the class, read through a self pointer of a class that has nothing of the name. -/
  | unseen {m : Mark} {cls self owner : ClassId} {name : String} :
      object = .selfRef m → object.ty = .object self → σ.selfClass? = some self →
      σ.cls = some cls → self ≠ cls → σ.world.findMember cls name = some (.field field, owner) →
      σ.world.findMember self name = none → Sees σ object field

/-- A function was looked up in the class or in one that the class inherits from. -/
def Knows (σ : Setting) (f : Signature) : Prop :=
  ∃ cls k name owner, σ.cls = some cls ∧ σ.world.descends cls k = true ∧
    σ.world.findMember k name = some (.function f, owner)

end Setting

/-- What a tree is settled in. -/
structure Context where
  setting : Setting
  kind : FunctionKind
  /-- Types of the local variables. -/
  types : LocalId → Ty
  /-- The left side of the innermost assignment around: the variable, unless it is in memory,
  and the type. -/
  target : Option (Option LocalId × Ty) := none

def Context.under (c : Context) (target : Expr) : Context :=
  { c with target := some (target.localId?, target.ty) }

/-! ## Trees -/

/-- A settled tree in a context, asked for its place or for its value. -/
inductive Settled : Context → Bool → Expr → Prop
  | constant {c : Context} {m : Mark} {value : Constant} :
      m.ty = some value.ty → value.ty.bank?.isSome → Settled c false (.constant m value)
  | cast {c : Context} {m : Mark} {kind : CastKind} {e : Expr} {bank : Bank} :
      Settled c false e → e.ty.bank? = some bank → kind.Takes bank → m.bank? = some kind.bank →
      Settled c false (.cast m kind e)
  | intCast {c : Context} {m : Mark} {e : Expr} {quiet : Bool} :
      Settled c false e → e.ty.bank? = some .float → m.bank? = some .int →
      Settled c false (.intCast m e quiet)
  | classCast {c : Context} {m : Mark} {e : Expr} {target : ClassId} :
      Settled c false e → e.ty.bank?.isSome → m.bank? = some .pointer →
      Settled c false (.classCast m e target)
  | minus {c : Context} {m : Mark} {e : Expr} {bank : Bank} :
      Settled c false e → e.ty.bank? = some bank → bank = .int ∨ bank = .float →
      m.bank? = some bank → Settled c false (.unary m .minus e)
  | complement {c : Context} {m : Mark} {op : UnaryOp} {e : Expr} :
      op = .bitNot ∨ op = .boolNot → Settled c false e → e.ty.bank? = some .int →
      m.bank? = some .int → Settled c false (.unary m op e)
  | step {c : Context} {m : Mark} {op : StepOp} {before : Bool} {e : Expr} {bank : Bank} :
      Settled c true e → e.ty.bank? = some bank → bank = .int ∨ bank = .float →
      m.bank? = some bank → (m.byAddress = true → before = true) →
      Settled c m.byAddress (.step m op before e)
  | assign {c : Context} {m : Mark} {target value : Expr} :
      Settled c true target → Settled (c.under target) false value →
      Ty.Agree value.ty target.ty → Ty.Agree (m.ty.getD .error) target.ty →
      Settled c m.byAddress (.assign m target value)
  | assigned {c : Context} {m : Mark} {target : Option LocalId × Ty} :
      c.target = some target → Ty.Agree (m.ty.getD .error) target.2 →
      Settled c false (.assigned m)
  | binary {c : Context} {m : Mark} {op : BinOp} {left right : Expr} {bank b : Bank} :
      Settled c false left → Settled c false right → left.ty.bank? = some bank →
      right.ty.bank? = some bank → op.bank? bank = some b → m.bank? = some b →
      ¬ (left.isConstant ∧ right.isConstant) → Settled c false (.binary m op left right)
  | logical {c : Context} {m : Mark} {op : LogicalOp} {left right : Expr} :
      Settled c false left → Settled c false right → left.ty.bank? = some .int →
      right.ty.bank? = some .int → m.bank? = some .int → Settled c false (.logical m op left right)
  | conditional {c : Context} {m : Mark} {cond whenTrue whenFalse : Expr} :
      Settled c false cond → Settled c false whenTrue → Settled c false whenFalse →
      cond.ty.bank? = some .int → Ty.Agree whenTrue.ty (m.ty.getD .error) →
      Ty.Agree whenFalse.ty (m.ty.getD .error) →
      Settled c false (.conditional m cond whenTrue whenFalse)
  | selfRef {c : Context} {m : Mark} :
      c.kind ≠ .static → m.bank? = some .pointer → Settled c false (.selfRef m)
  | localVar {c : Context} {m : Mark} {id : LocalId} :
      m.bank? = (c.types id).bank? → Settled c m.byAddress (.localVar m id)
  | field {c : Context} {m : Mark} {object : Expr} {offset : Nat} {readonly : Bool} :
      Settled c false object → object.ty.bank? = some .pointer →
      (∃ f : Field, c.setting.Sees object f ∧ f.offset = offset ∧ f.flags.isReadonly = readonly ∧
        c.setting.world.Widens f.ty (m.ty.getD .error)) →
      Settled c m.byAddress (.field m object offset readonly)
  | element {c : Context} {m : Mark} {array index : Expr} {elem : Ty} {count : Nat}
      {bank : Bank} :
      Settled c true array → Settled c false index → array.ty = .array elem count →
      index.ty.bank? = some .int → elem.bank? = some bank → bank = .int ∨ bank = .float →
      m.bank? = some bank → Settled c m.byAddress (.element m array index)
  | invoke {c : Context} {m : Mark} {object : Option Expr} {function : Signature}
      {args : List Expr} :
      (∀ e ∈ object, Settled c false e) → (∀ e ∈ object, e.ty.bank? = some .pointer) →
      (∀ e ∈ args, Settled c false e) → (∀ e ∈ args, e.ty ≠ .void) →
      Ty.Agree (m.ty.getD .error) (function.returns.headD .void) →
      (object = none → function.kind ≠ .static →
        c.setting.selfClass?.isSome ∧ c.setting.Knows function) →
      Settled c false (.invoke m object function args false)
  | special {c : Context} {m : Mark} {number : Int32} {args : List Expr} :
      (∀ e ∈ args, Settled c false e) → (∀ e ∈ args, e.ty.bank? = some .int) →
      m.bank? = some .int → Settled c false (.special m number args false)
  | floatFn {c : Context} {m : Mark} {fn : FloatFn} {e : Expr} :
      Settled c false e → e.ty.bank? = some .float → m.bank? = some .float →
      Settled c false (.floatFn m fn e)
  | random {c : Context} {m : Mark} {float : Bool} {rng : String} {low high : Expr} {bank : Bank} :
      Settled c false low → Settled c false high → low.ty.bank? = some bank →
      high.ty.bank? = some bank → bank = (if float then .float else .int) →
      m.bank? = some bank → Settled c false (.random m float rng low high false)
  | random2 {c : Context} {m : Mark} {rng : String} {mask : Expr} :
      Settled c false mask → mask.ty.bank? = some .int → m.bank? = some .int →
      Settled c false (.random2 m rng mask false)
  | randomPick {c : Context} {m : Mark} {float : Bool} {rng : String} {choices : List Expr}
      {bank : Bank} :
      (∀ e ∈ choices, Settled c false e) → (∀ e ∈ choices, e.ty.bank? = some bank) →
      bank = (if float then .float else .int) → m.bank? = some bank →
      Settled c false (.randomPick m float rng choices)
  | extremum {c : Context} {m : Mark} {op : Extremum} {args : List Expr} {bank : Bank} :
      2 ≤ args.length → (∀ e ∈ args, Settled c false e) → (∀ e ∈ args, e.ty.bank? = some bank) →
      bank = .int ∨ bank = .float → m.bank? = some bank → Settled c false (.extremum m op args)
  | abs {c : Context} {m : Mark} {e : Expr} {bank : Bank} :
      Settled c false e → e.ty.bank? = some bank → bank = .int ∨ bank = .float →
      m.bank? = some bank → Settled c false (.abs m e)
  | atan2 {c : Context} {m : Mark} {y x : Expr} :
      Settled c false y → Settled c false x → y.ty.bank? = some .float →
      x.ty.bank? = some .float → m.bank? = some .float → Settled c false (.atan2 m y x)
  | runtimeState {c : Context} {m : Mark} {index : Expr} :
      Settled c false index → index.ty.bank? = some .int → m.bank? = some .pointer →
      Settled c false (.runtimeState m index false)
  | stateLabel {c : Context} {m : Mark} {text : String} {names : List String} :
      m.bank? = some .pointer → Settled c false (.stateLabel m text names false)

/-- Operands are settled too, perhaps as the right side of an assignment. -/
theorem Settled.child {c : Context} {byAddress : Bool} {e x : Expr} (h : Settled c byAddress e)
    (hx : x ∈ e.children) : ∃ target b, Settled { c with target } b x := by
  have same {b : Bool} {x : Expr} (h : Settled c b x) :
      ∃ target b, Settled { c with target } b x := ⟨c.target, b, h⟩
  cases h with
  | constant | assigned | selfRef | localVar | stateLabel => simp [Expr.children] at hx
  | cast h | intCast h | classCast h | minus h | step h | field h | floatFn h | random2 h | abs h
  | runtimeState h | complement _ h =>
    obtain rfl := List.mem_singleton.1 hx
    exact same h
  | assign htarget hvalue =>
    simp only [Expr.children, List.mem_cons, List.not_mem_nil, or_false] at hx
    rcases hx with rfl | rfl
    · exact same htarget
    · exact ⟨_, _, hvalue⟩
  | binary h h' | logical h h' | random h h' | atan2 h h' | element h h' =>
    simp only [Expr.children, List.mem_cons, List.not_mem_nil, or_false] at hx
    rcases hx with rfl | rfl
    · exact same h
    · exact same h'
  | conditional hcond ht hf =>
    simp only [Expr.children, List.mem_cons, List.not_mem_nil, or_false] at hx
    rcases hx with rfl | rfl | rfl
    · exact same hcond
    · exact same ht
    · exact same hf
  | invoke hobject _ hargs =>
    rcases List.mem_append.1 hx with hx | hx
    · exact same (hobject x (Option.mem_toList.1 hx))
    · exact same (hargs x hx)
  | special hargs | randomPick hargs | extremum _ hargs => exact same (hargs x hx)

/-- Every node of a settled tree is settled. -/
theorem Settled.part {c : Context} {byAddress : Bool} {e node : Expr} (h : Settled c byAddress e)
    (hnode : e.Part node) : ∃ target b, Settled { c with target } b node := by
  induction hnode generalizing c byAddress with
  | root => exact ⟨c.target, byAddress, h⟩
  | operand hchild _ ih =>
    obtain ⟨_, _, hx⟩ := h.child hchild
    have hnode := ih hx
    exact hnode

/-! ## Statements -/

def Context.Condition (c : Context) (e : Expr) : Prop :=
  Settled c false e ∧ e.ty.bank? = some .int

inductive SettledStmt (c : Context) : Stmt → Prop
  | nop {span : Span} : SettledStmt c (.nop span)
  | expr {span : Span} {value : Expr} : Settled c false value → SettledStmt c (.expr span value)
  | sequence {span : Span} {body : List Stmt} :
      (∀ s ∈ body, SettledStmt c s) → SettledStmt c (.sequence span body)
  | block {span : Span} {body : List Stmt} {locals : List LocalId} :
      (∀ s ∈ body, SettledStmt c s) → SettledStmt c (.block span body locals)
  | branch {span : Span} {cond : Expr} {whenTrue whenFalse : Option Stmt} :
      c.Condition cond → (∀ s ∈ whenTrue, SettledStmt c s) → (∀ s ∈ whenFalse, SettledStmt c s) →
      (whenTrue = none → whenFalse ≠ none) → SettledStmt c (.branch span cond whenTrue whenFalse)
  | whileLoop {span : Span} {cond : Expr} {body : Stmt} :
      c.Condition cond → SettledStmt c body → SettledStmt c (.whileLoop span cond body)
  | doWhile {span : Span} {body : Stmt} {cond : Expr} :
      SettledStmt c body → c.Condition cond → SettledStmt c (.doWhile span body cond)
  | forLoop {span : Span} {cond : Option Expr} {step : Option Stmt} {body : Stmt} :
      (∀ e ∈ cond, c.Condition e) → (∀ s ∈ step, SettledStmt c s) → SettledStmt c body →
      SettledStmt c (.forLoop span none cond step body)
  | jump {span : Span} {kind : JumpKind} : SettledStmt c (.jump span kind)
  | ret {span : Span} {value : Option Expr} :
      (∀ e ∈ value, Settled c false e) → SettledStmt c (.ret span (value.map Expr.markTail))
  | declare {span : Span} {name type : String} {value : Expr} {id : LocalId} {bank : Bank} :
      Settled c false value → value.ty.bank? = some bank → (c.types id).bank? = some bank →
      SettledStmt c (.declare span name type (some value) (some id))

end ActorScript
