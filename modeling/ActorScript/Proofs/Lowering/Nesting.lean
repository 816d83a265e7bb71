import ActorScript.Proofs.Locals
import ActorScript.Proofs.Lowering.Onward

/-! # Lowering by nesting

A compound assignment reads its left side once more. Where it is to be found is kept on a stack
while the right side is lowered. The same can be said without a stack: the place of the left side
is handed down to the code of the right side. Here trees are lowered that way too, and both ways are
shown to do the same from every draft.
-/

namespace ActorScript

variable {args args' : List (Lowering Place)}

namespace Lowering

/-! ## Places handed down -/

/-- Stores a value that is lowered from the place it is stored in. -/
def assignmentTo (byAddress : Bool) (ty : Ty) (target : Lowering Place)
    (value : Place → Lowering Place) : Lowering Place := do
  let place ← target
  let stored ← value place
  let stored ←
    if place.isVariable then do
      assign stored.bank? place stored
      pure stored
    else do
      let stored ← toRegister stored
      let zero ← pooledInt 0
      emit (.store (.ofTy ty) false) place.operand stored.operand zero
      pure stored
  if byAddress then
    stored.free
    return place
  place.free
  return stored

def readAgain (place? : Option Place) (ty : Ty) : Lowering Place := do
  match place? with
  | none => unresolved "compound assignment"
  | some place =>
      if place.isVariable then
        return { place with isVariable := false, isFixed := true }
      let out ← Place.alloc ty.bank?
      let zero ← pooledInt 0
      emit (.load (.ofTy ty) false) out.operand place.operand zero
      return out

end Lowering

open Lowering

mutual

/-- The code of an expression in the right side of an assignment to a place, or in none. -/
def Expr.lowerIn : Expr → Option Place → Lowering Place
  | .constant _ value, _ => Lowering.constant value
  | .cast _ kind operand, self => Lowering.cast kind operand.ty (operand.lowerIn self)
  | .intCast m operand _, self => Lowering.intCast (m.ty.getD .error) (operand.lowerIn self)
  | .classCast _ operand target, self => Lowering.classCast target (operand.lowerIn self)
  | .unary _ op operand, self => Lowering.unary op (operand.lowerIn self)
  | .step m op before operand, self =>
      Lowering.step op before m.byAddress operand.ty (operand.lowerIn self)
  | .assign m target value, self =>
      assignmentTo m.byAddress target.ty (target.lowerIn self) fun place =>
        value.lowerIn (some place)
  | .assigned m, self => readAgain self (m.ty.getD .error)
  | .binary m op left right, self =>
      Lowering.binary op (m.ty.getD .error) left.ty right.ty right.constant? (left.lowerIn self)
        (right.lowerIn self)
  | .logical _ op left right, self =>
      Lowering.logical op (left.lowerIn self) (right.lowerIn self)
  | .conditional m cond whenTrue whenFalse, self =>
      Lowering.conditional (m.ty.getD .error) (cond.lowerIn self) (whenTrue.lowerIn self)
        (whenFalse.lowerIn self)
  | .selfRef _, _ => selfPlace
  | .localVar m id, _ => do
      let place ← home id
      return { place with isVariable := m.byAddress }
  | .field m object offset _, self =>
      Lowering.field m.byAddress (m.ty.getD .error) offset (object.lowerIn self)
  | .element m array index, self =>
      Lowering.element m.byAddress array.ty index.constant? (array.lowerIn self)
        (index.lowerIn self)
  | .invoke _ object function args tail, self =>
      Lowering.invoke function (lowerOptionIn object self) (lowerAllIn args self) tail
  | .special _ number args tail, self =>
      Lowering.special number ((args.map Expr.constant?).zip (lowerAllIn args self)) tail
  | .floatFn _ fn arg, self => Lowering.floatFn fn (arg.lowerIn self)
  | .random _ float rng low high tail, self =>
      Lowering.random float rng (low.lowerIn self) (high.lowerIn self) tail
  | .random2 _ rng mask tail, self => Lowering.random2 rng (mask.lowerIn self) tail
  | .randomPick _ float rng choices, self =>
      Lowering.randomPick float rng (lowerAllIn choices self)
  | .extremum m op args, self => Lowering.extremum (m.ty.getD .error) op (lowerAllIn args self)
  | .abs _ operand, self => Lowering.abs (operand.lowerIn self)
  | .atan2 _ y x, self => Lowering.atan2 (y.lowerIn self) (x.lowerIn self)
  | .runtimeState _ index tail, self => Lowering.runtimeState (index.lowerIn self) tail
  | .stateLabel _ _ names tail, _ => Lowering.stateLabel names tail
  | .identifier _ _, _ => unresolved "identifier"
  | .member _ _ _, _ => unresolved "member"
  | .call _ _ _ _, _ => unresolved "call"
  | .memberCall _ _ _ _, _ => unresolved "call"
  | .explicitCast _ _ _, _ => unresolved "cast"
  | .typeCast _ _ _ _, _ => unresolved "cast"
  | .storage _ _ _, _ => unresolved "sizeof"
  | .stateIndex _ _, _ => unresolved "state index"

def lowerAllIn : List Expr → Option Place → List (Lowering Place)
  | [], _ => []
  | e :: rest, self => e.lowerIn self :: lowerAllIn rest self

def lowerOptionIn : Option Expr → Option Place → Option (Lowering Place)
  | none, _ => none
  | some e, self => some (e.lowerIn self)

end

/-! ## Two ways to do the same -/

/-- A draft with some instructions under the left sides of some assignments. -/
structure Draft.Past (d : Draft) (ps : List Place) (n : Nat) : Prop where
  assigned : d.assigned = ps
  size : n ≤ d.assembler.code.size

/-- Where `ps` are the left sides of the enclosing assignments, `x` does what `y` does whatever they
are. It leaves them as they are, leads onward and takes no fault back. -/
class Nests {α : Type} (ps : List Place) (n : Nat) (x y : Lowering α) : Prop where
  runs : ∀ (t : Target) (d : Draft) (stack : List Place), d.Past ps n →
    (y.run t).run { d with assigned := stack } =
      (((x.run t).run d).1, { ((x.run t).run d).2 with assigned := stack })
  keeps : ∀ (t : Target) (d : Draft), d.Past ps n → ((x.run t).run d).2.assigned = ps
  onward : ∀ (t : Target) (d : Draft), d.Past ps n →
    d.assembler.Onward ((x.run t).run d).2.assembler
  safe : ∀ (t : Target) (d : Draft), d.Past ps n → d.faults <+: ((x.run t).run d).2.faults

/-- A step that does the same whatever the left sides are. -/
abbrev Steady {α : Type} (ps : List Place) (n : Nat) (x : Lowering α) : Prop :=
  Nests ps n x x

namespace Nests

variable {α β γ : Type} {ps : List Place} {n : Nat}

theorem past {x y : Lowering α} (h : Nests ps n x y) (t : Target) {d : Draft} (hd : d.Past ps n) :
    ((x.run t).run d).2.Past ps n :=
  ⟨h.keeps t d hd, hd.size.trans (h.onward t d hd).grows⟩

instance pure (a : α) : Steady ps n (Pure.pure a) :=
  ⟨fun _ _ _ _ => rfl, fun _ _ h => h.assigned, fun _ _ _ => .of_code rfl,
    fun _ _ _ => List.prefix_rfl⟩

/-- The rest may rely on what is known of the draft and the value that the first step gives. -/
theorem next {x y : Lowering α} {f g : α → Lowering β} (hx : Nests ps n x y)
    {P : α → Nat → Prop}
    (hpost : ∀ t d, d.Past ps n → ∃ m, P ((x.run t).run d).1 m ∧ ((x.run t).run d).2.Past ps m)
    (hf : ∀ a m, P a m → Nests ps m (f a) (g a)) : Nests ps n (x >>= f) (y >>= g) := by
  refine ⟨fun t d stack h => ?_, fun t d h => ?_, fun t d h => ?_, fun t d h => ?_⟩ <;>
    obtain ⟨m, hm, hpast⟩ := hpost t d h
  · change ((g ((y.run t).run { d with assigned := stack }).1).run t).run
      ((y.run t).run { d with assigned := stack }).2 = _
    rw [hx.runs t d stack h]
    exact (hf _ m hm).runs t _ stack hpast
  · exact (hf _ m hm).keeps t _ hpast
  · exact (hx.onward t d h).trans ((hf _ m hm).onward t _ hpast)
  · exact (hx.safe t d h).trans ((hf _ m hm).safe t _ hpast)

theorem andThen {x y : Lowering α} {f g : α → Lowering β} (hx : Nests ps n x y)
    (hf : ∀ a, Nests ps n (f a) (g a)) : Nests ps n (x >>= f) (y >>= g) :=
  hx.next (P := fun _ m => m = n) (fun t _ hd => ⟨n, rfl, hx.past t hd⟩)
    fun a _ hm => hm ▸ hf a

instance bind (x y : Lowering α) (f g : α → Lowering β) [hx : Nests ps n x y]
    [hf : ∀ a, Nests ps n (f a) (g a)] : Nests ps n (x >>= f) (y >>= g) :=
  hx.andThen hf

instance seq (x x' : Lowering α) (y y' : Lowering β) [hx : Nests ps n x x']
    [hy : Nests ps n y y'] : Nests ps n (x >>= fun _ => y) (x' >>= fun _ => y') :=
  hx.andThen fun _ => hy

instance through (x x' : Lowering α) (f f' : α → Lowering β) (g g' : β → Lowering γ)
    [hx : Nests ps n x x'] [hf : ∀ a, Nests ps n (f a) (f' a)] [hg : ∀ b, Nests ps n (g b) (g' b)] :
    Nests ps n (x >>= fun a => f a >>= g) (x' >>= fun a => f' a >>= g') :=
  hx.andThen fun a => (hf a).andThen hg

instance ite (c : Prop) [Decidable c] (x x' y y' : Lowering α) [hx : Nests ps n x x']
    [hy : Nests ps n y y'] : Nests ps n (if c then x else y) (if c then x' else y') := by
  split <;> assumption

instance discard (x y : Lowering α) [hx : Nests ps n x y] :
    Nests ps n (Functor.discard x : Lowering PUnit) (Functor.discard y) :=
  inferInstanceAs (Nests ps n (x >>= fun _ => Pure.pure PUnit.unit)
    (y >>= fun _ => Pure.pure PUnit.unit))

instance lift (x : Assembly α) [hx : Assembly.Onward x] [hsafe : Assembly.Safe x] :
    Nests ps n (liftM x : Lowering α) (liftM x) :=
  ⟨fun _ _ _ _ => rfl, fun _ _ h => h.assigned, fun _ d _ => hx.runs d.assembler,
    fun t d _ => (Safe.lift x).keeps t d⟩

instance read : Nests ps n (MonadReader.read : Lowering Target) MonadReader.read :=
  ⟨fun _ _ _ _ => rfl, fun _ _ h => h.assigned, fun _ _ _ => .of_code rfl,
    fun _ _ _ => List.prefix_rfl⟩

theorem mono {x y : Lowering α} (h : Nests ps n x y) {m : Nat} (hm : n ≤ m) : Nests ps m x y :=
  ⟨fun t d stack hd => h.runs t d stack ⟨hd.assigned, hm.trans hd.size⟩,
    fun t d hd => h.keeps t d ⟨hd.assigned, hm.trans hd.size⟩,
    fun t d hd => h.onward t d ⟨hd.assigned, hm.trans hd.size⟩,
    fun t d hd => h.safe t d ⟨hd.assigned, hm.trans hd.size⟩⟩

theorem jump {f g : Nat → Lowering β} (hf : ∀ k m, n ≤ m → k < m → Nests ps m (f k) (g k)) :
    Nests ps n ((liftM Assembly.jumpForward : Lowering Nat) >>= f)
      ((liftM Assembly.jumpForward : Lowering Nat) >>= g) := by
  refine (lift Assembly.jumpForward).next (P := fun k m => n ≤ m ∧ k < m) (fun t d hd => ?_)
    fun k m hm => hf k m hm.1 hm.2
  refine ⟨d.assembler.code.size + 1, ⟨hd.size.trans (Nat.le_succ _), Nat.lt_succ_self _⟩,
    hd.assigned, ?_⟩
  change _ ≤ (d.assembler.code.push _).size
  simp

/-- What follows is written from the position told on. -/
theorem position {f g : Nat → Lowering β} (hf : ∀ k, n ≤ k → Nests ps k (f k) (g k)) :
    Nests ps n ((liftM Assembly.position : Lowering Nat) >>= f)
      ((liftM Assembly.position : Lowering Nat) >>= g) :=
  (lift Assembly.position).next (P := fun k m => n ≤ k ∧ k = m)
    (fun _ d hd => ⟨d.assembler.code.size, ⟨hd.size, rfl⟩, hd.assigned, le_rfl⟩)
    fun k _ hm => hm.2 ▸ hf k hm.1

theorem forM {l : List α} {l' : List β} {f : α → Lowering PUnit} {g : β → Lowering PUnit}
    (h : List.Forall₂ (fun a b => Nests ps n (f a) (g b)) l l') :
    Nests ps n (l.forM f) (l'.forM g) := by
  induction h with
  | nil => exact pure _
  | cons hab _ ih => exact andThen hab fun _ => ih

theorem mapM {l : List α} {l' : List β} {f : α → Lowering γ} {g : β → Lowering γ}
    (h : List.Forall₂ (fun a b => Nests ps n (f a) (g b)) l l') :
    Nests ps n (l.mapM f) (l'.mapM g) := by
  induction h with
  | nil =>
    simp only [List.mapM_nil]
    exact pure _
  | cons hab _ ih =>
    simp only [List.mapM_cons]
    infer_instance

end Nests

namespace Lowering

variable {ps : List Place} {n : Nat}

section Basic

variable (a : Operand) (value : Int32) (bank? : Option Bank) (p : Place) (params : Nat)
  (tail : Bool)

instance nests_emit (op : Op) (b c : Operand) : Steady ps n (emit op a b c) := by
  unfold emit
  infer_instance

instance nests_emitWide (op : Op) (bx : Operand) : Steady ps n (emitWide op a bx) := by
  unfold emitWide
  infer_instance

theorem nests_emitSigned {op : Op} {a : Operand} {offset : Int} (h : op = .jmp → 0 ≤ offset) :
    Steady ps n (emitSigned op a offset) := by
  have := Assembly.Onward.asbx (a := a) h
  unfold emitSigned
  infer_instance

instance nests_loadSigned (value : Int) : Steady ps n (emitSigned .li a value) :=
  nests_emitSigned (by simp)

instance nests_passSigned (value : Int) : Steady ps n (emitSigned .parami a value) :=
  nests_emitSigned (by simp)

instance nests_skip (count : Nat) : Steady ps n (skip count) :=
  nests_emitSigned fun _ => Int.natCast_nonneg count

instance nests_unresolved (what : String) : Steady ps n (unresolved what) := by
  unfold unresolved
  infer_instance

instance nests_pooledInt : Steady ps n (pooledInt value) := by
  unfold pooledInt
  infer_instance

instance nests_pooledAddress (value : Pooled) : Steady ps n (pooledAddress value) := by
  unfold pooledAddress
  infer_instance

instance nests_constant (c : Constant) : Steady ps n (constant c) := by
  unfold constant
  split
  · split <;> infer_instance
  all_goals infer_instance

instance nests_assign (target source : Place) : Steady ps n (assign bank? target source) := by
  unfold assign
  infer_instance

instance nests_toRegister : Steady ps n (toRegister p) := by
  unfold toRegister
  infer_instance

instance nests_toScratch : Steady ps n (toScratch p) := by
  unfold toScratch
  infer_instance

instance nests_selfPlace : Steady ps n selfPlace := by
  unfold selfPlace
  refine .andThen inferInstance fun t => ?_
  split <;> infer_instance

instance nests_home (id : LocalId) : Steady ps n (home id) := by
  have hread (homes : Array (Option Place)) :
      Nests ps n (α := Place)
        (match homes[id]? with
          | some (some place) => return place
          | _ => unresolved "local variable")
        (match homes[id]? with
          | some (some place) => return place
          | _ => unresolved "local variable") := by
    split <;> infer_instance
  exact ⟨fun t d => (hread d.homes).runs t d, fun t d => (hread d.homes).keeps t d,
    fun t d => (hread d.homes).onward t d, fun t d => (hread d.homes).safe t d⟩

instance nests_truthOf (dest : Place) (comparison : Op) (check : Nat) (b c : Operand) :
    Steady ps n (truthOf dest comparison check b c) := by
  unfold truthOf
  infer_instance

instance nests_param : Steady ps n (param p) := by
  unfold param
  infer_instance

instance nests_paramInt : Steady ps n (paramInt value) := by
  unfold paramInt
  infer_instance

instance nests_result : Steady ps n (result bank?) := by
  unfold result
  infer_instance

instance nests_call (callee : Pooled) (results : List (Option Bank)) :
    Steady ps n (call callee params results tail) := by
  unfold call
  cases results <;> infer_instance

instance nests_callService (service : Service) (bank : Bank) :
    Steady ps n (callService service params bank tail) :=
  nests_call _ _ _ _

/-- Under an assignment its own left side is on top. -/
theorem nests_withAssigned {α : Type} {place : Place} {x y : Lowering α}
    [h : Nests (place :: ps) n x y] : Nests ps n (withAssigned place x) y := by
  refine ⟨fun t d stack hd => ?_, fun t d hd => ?_, fun t d hd => ?_, fun t d hd => ?_⟩
  · exact h.runs t { d with assigned := place :: d.assigned } stack ⟨by rw [hd.assigned], hd.size⟩
  · have := h.keeps t { d with assigned := place :: d.assigned } ⟨by rw [hd.assigned], hd.size⟩
    exact congrArg List.tail this
  · exact h.onward t { d with assigned := place :: d.assigned } ⟨by rw [hd.assigned], hd.size⟩
  · exact h.safe t { d with assigned := place :: d.assigned } ⟨by rw [hd.assigned], hd.size⟩

instance nests_assignedValue (ty : Ty) :
    Nests ps n (assignedValue ty) (readAgain ps.head? ty) := by
  have hread : Steady ps n (readAgain ps.head? ty) := by
    unfold readAgain
    cases ps.head? <;> infer_instance
  have hrun (t : Target) (d : Draft) (hd : d.assigned = ps) :
      ((assignedValue ty).run t).run d = ((readAgain ps.head? ty).run t).run d := by
    subst hd
    change (((match d.assigned with
      | [] => unresolved "compound assignment"
      | place :: _ => _ : Lowering Place)).run t).run d = _
    cases d.assigned <;> rfl
  refine ⟨fun t d stack hd => ?_, fun t d hd => ?_, fun t d hd => ?_, fun t d hd => ?_⟩ <;>
    rw [hrun t d hd.assigned]
  · exact hread.runs t d stack hd
  · exact hread.keeps t d hd
  · exact hread.onward t d hd
  · exact hread.safe t d hd

end Basic

/-! ## Operators -/

section Operators

variable (left left' right right' operand operand' cond cond' : Lowering Place)
  [Nests ps n left left'] [Nests ps n right right'] [Nests ps n operand operand']
  [Nests ps n cond cond'] (bank? : Option Bank) (op : BinOp) (move : Op × Operand)
  (before byAddress : Bool) (place : Place) (ty leftTy rightTy : Ty) (amount : Option Constant)

instance nests_convert (bank : Bank) (conversion : Conversion) :
    Nests ps n (convert operand bank conversion) (convert operand' bank conversion) := by
  unfold convert
  infer_instance

instance nests_zeroTest (dest : Place) : Steady ps n (zeroTest bank? dest) := by
  unfold zeroTest
  split <;> infer_instance

instance nests_toBool : Nests ps n (toBool operand) (toBool operand') := by
  unfold toBool
  infer_instance

instance nests_cast (kind : CastKind) (source : Ty) :
    Nests ps n (cast kind source operand) (cast kind source operand') := by
  unfold cast
  cases kind <;> infer_instance

instance nests_intCast (target : Ty) :
    Nests ps n (intCast target operand) (intCast target operand') := by
  unfold intCast
  infer_instance

instance nests_unary (op : UnaryOp) : Nests ps n (unary op operand) (unary op operand') := by
  unfold unary
  cases op <;> infer_instance

instance nests_stepBy (op : StepOp) : Steady ps n (stepBy op bank?) := by
  unfold stepBy
  cases op <;> infer_instance

instance nests_stepVariable : Steady ps n (stepVariable move before byAddress bank? place) := by
  unfold stepVariable
  infer_instance

instance nests_stepCell (zero : Operand) :
    Steady ps n (stepCell move zero before byAddress ty place) := by
  unfold stepCell
  infer_instance

instance nests_step (op : StepOp) :
    Nests ps n (step op before byAddress ty operand) (step op before byAddress ty operand') := by
  unfold step
  infer_instance

theorem nests_assignment {byAddress : Bool} {ty : Ty} {value : Lowering Place}
    {value' : Place → Lowering Place} (h : ∀ place, Nests (place :: ps) n value (value' place)) :
    Nests ps n (assignment byAddress ty left value) (assignmentTo byAddress ty left' value') := by
  have (place : Place) : Nests ps n (withAssigned place value) (value' place) :=
    have := h place
    nests_withAssigned
  unfold assignment assignmentTo
  refine .andThen inferInstance fun place => .andThen inferInstance fun stored => ?_
  infer_instance

instance nests_arithmetic :
    Nests ps n (arithmetic op ty left right) (arithmetic op ty left' right') := by
  unfold arithmetic
  refine .andThen inferInstance fun l => .andThen inferInstance fun r => ?_
  split
  infer_instance

instance nests_order :
    Nests ps n (order op leftTy rightTy left right) (order op leftTy rightTy left' right') := by
  unfold order
  infer_instance

instance nests_equality : Nests ps n (equality op left right) (equality op left' right') := by
  unfold equality
  refine .andThen inferInstance fun l => .andThen inferInstance fun r => ?_
  split
  infer_instance

instance nests_threeWay :
    Nests ps n (threeWay leftTy rightTy left right) (threeWay leftTy rightTy left' right') := by
  unfold threeWay
  infer_instance

instance nests_shift : Nests ps n (shift op amount left right) (shift op amount left' right') := by
  unfold shift
  cases amount <;> infer_instance

instance nests_bitwise : Nests ps n (bitwise op left right) (bitwise op left' right') := by
  unfold bitwise
  refine .andThen inferInstance fun l => .andThen inferInstance fun r => ?_
  split
  infer_instance

instance nests_binary : Nests ps n (binary op ty leftTy rightTy amount left right)
      (binary op ty leftTy rightTy amount left' right') := by
  unfold binary
  split <;> infer_instance

instance nests_logical (op : LogicalOp) :
    Nests ps n (logical op left right) (logical op left' right') := by
  unfold logical
  refine .andThen inferInstance fun zero => .andThen inferInstance fun l => .andThen inferInstance
    fun l => .andThen inferInstance fun _ => .andThen inferInstance fun _ => ?_
  refine .jump fun shortcut m hm hshortcut => ?_
  have hright : Nests ps m right right' := Nests.mono inferInstance hm
  refine .andThen hright fun r => .andThen inferInstance fun r => .andThen inferInstance
    fun _ => .andThen inferInstance fun dest => .andThen inferInstance fun _ =>
    .andThen inferInstance fun _ => .andThen inferInstance fun _ => .andThen inferInstance
    fun _ => ?_
  refine .position fun target htarget => ?_
  have : Assembly.Onward (Assembly.patchTo shortcut target) :=
    ⟨fun _ => Assembly.Onward.patchTo fun _ => hshortcut.trans_le htarget⟩
  infer_instance

instance nests_conditional :
    Nests ps n (conditional ty cond left right) (conditional ty cond' left' right') := by
  unfold conditional
  infer_instance

end Operators

/-! ## Fields, elements and calls -/

section Calls

variable (operand operand' index index' : Lowering Place) [Nests ps n operand operand']
  [Nests ps n index index'] (start : Place) (byAddress tail : Bool) (count : Nat) (rng : String)
  (names : List String)

instance nests_addressPast (offset : Int32) : Steady ps n (addressPast start offset) := by
  unfold addressPast
  infer_instance

instance nests_field (ty : Ty) (offset : Nat) :
    Nests ps n (field byAddress ty offset operand) (field byAddress ty offset operand') := by
  unfold field
  infer_instance

instance nests_constantElement (elem : Ty) (index : Int32) :
    Steady ps n (constantElement byAddress elem start index) := by
  unfold constantElement
  infer_instance

instance nests_scaleIndex (size : Nat) (place : Place) :
    Steady ps n (scaleIndex size count place) := by
  unfold scaleIndex
  infer_instance

instance nests_computedElement (elem : Ty) :
    Nests ps n (computedElement byAddress elem count start index)
      (computedElement byAddress elem count start index') := by
  unfold computedElement
  infer_instance

instance nests_element (arrayTy : Ty) (position : Option Constant) :
    Nests ps n (element byAddress arrayTy position operand index)
      (element byAddress arrayTy position operand' index') := by
  unfold element
  split
  · cases position <;> infer_instance
  · infer_instance

theorem nests_params (h : List.Forall₂ (Nests ps n) args args') :
    Nests ps n (params args) (params args') :=
  .forM (h.imp fun _ _ hx => hx.andThen fun _ => inferInstance)

instance nests_callerPlaces : Steady ps n callerPlaces := by
  unfold callerPlaces
  refine .andThen inferInstance fun t => ?_
  split <;> infer_instance

theorem nests_implicitParams (kind : FunctionKind) {object object' : Option (Lowering Place)}
    (h : Option.Rel (Nests ps n) object object') :
    Nests ps n (implicitParams kind object) (implicitParams kind object') := by
  have : Nests ps n (object.getD selfPlace) (object'.getD selfPlace) := by
    cases h with
    | none => exact nests_selfPlace
    | some hx => exact hx
  have (places : List Place) : Steady ps n (places.forM param) :=
    .forM (List.forall₂_same.2 fun p _ => nests_param p)
  unfold implicitParams
  cases kind <;> infer_instance

theorem nests_invoke {function : Signature} {object object' : Option (Lowering Place)} {tail : Bool}
    (hobject : Option.Rel (Nests ps n) object object')
    (hargs : List.Forall₂ (Nests ps n) args args') :
    Nests ps n (invoke function object args tail) (invoke function object' args' tail) := by
  have := nests_implicitParams function.kind hobject
  have := nests_params hargs
  unfold invoke
  rw [hargs.length_eq]
  infer_instance

instance nests_specialParam (named : Bool) (known : Option Constant) :
    Nests ps n (specialParam named known operand) (specialParam named known operand') := by
  unfold specialParam
  split
  · split <;> infer_instance
  · infer_instance

theorem nests_specialParams {args args' : List (Option Constant × Lowering Place)}
    (h : List.Forall₂ (fun x y => x.1 = y.1 ∧ Nests ps n x.2 y.2) args args') (named : Bool) :
    Nests ps n (specialParams named args) (specialParams named args') := by
  induction h generalizing named with
  | nil => exact Nests.pure ()
  | @cons first first' _ _ hfirst _ ih =>
    obtain ⟨known, arg⟩ := first
    obtain ⟨_, arg'⟩ := first'
    obtain ⟨rfl, harg⟩ := hfirst
    have := ih false
    unfold specialParams
    infer_instance

theorem nests_special {number : Int32} {args args' : List (Option Constant × Lowering Place)}
    {tail : Bool} (h : List.Forall₂ (fun x y => x.1 = y.1 ∧ Nests ps n x.2 y.2) args args') :
    Nests ps n (special number args tail) (special number args' tail) := by
  have := nests_specialParams h
  unfold special
  rw [h.length_eq]
  infer_instance

instance nests_generator (name : String) : Steady ps n (generator name) := by
  unfold generator
  infer_instance

instance nests_random (float : Bool) :
    Nests ps n (random float rng operand index tail) (random float rng operand' index' tail) := by
  have : Nests ps n (params [operand, index]) (params [operand', index']) :=
    nests_params (.cons inferInstance (.cons inferInstance .nil))
  unfold random
  infer_instance

instance nests_random2 : Nests ps n (random2 rng operand tail) (random2 rng operand' tail) := by
  have : Nests ps n (params [operand]) (params [operand']) :=
    nests_params (.cons inferInstance .nil)
  unfold random2
  infer_instance

theorem nests_choices {bank : Bank} {out : Place} {options options' : List (Nat × Lowering Place)}
    (h : List.Forall₂ (fun x y => x.1 = y.1 ∧ Nests ps n x.2 y.2) options options') :
    Nests ps n (choices bank out options) (choices bank out options') := by
  induction h with
  | nil => exact Nests.pure _
  | @cons first first' rest rest' hfirst hrest ih =>
    obtain ⟨entry, choice⟩ := first
    obtain ⟨_, choice'⟩ := first'
    obtain ⟨rfl, hchoice⟩ := hfirst
    have hempty : rest.isEmpty = rest'.isEmpty := by
      cases hrest <;> rfl
    unfold choices
    rw [hempty]
    infer_instance

instance nests_drawPosition : Steady ps n (drawPosition rng count) := by
  unfold drawPosition
  infer_instance

theorem forall₂_zip {α β : Type} {R : β → β → Prop} {keys : List α} {xs ys : List β}
    (h : List.Forall₂ R xs ys) :
    List.Forall₂ (fun x y => x.1 = y.1 ∧ R x.2 y.2) (keys.zip xs) (keys.zip ys) := by
  induction h generalizing keys with
  | nil => simp
  | cons hxy _ ih =>
    cases keys with
    | nil => simp
    | cons key keys => exact .cons ⟨rfl, hxy⟩ ih

theorem nests_randomPick {float : Bool} {rng : String} {options options' : List (Lowering Place)}
    (h : List.Forall₂ (Nests ps n) options options') :
    Nests ps n (randomPick float rng options) (randomPick float rng options') := by
  have (bank : Bank) (out : Place) (table : List Nat) :
      Nests ps n (choices bank out (table.zip options)) (choices bank out (table.zip options')) :=
    nests_choices (forall₂_zip h)
  have (jumps : List Nat) :
      Steady ps n (jumps.forM fun finish => liftM (Assembly.patch finish)) :=
    .forM (List.forall₂_same.2 fun _ _ => inferInstance)
  have : Nests ps n (options.mapM fun _ => liftM Assembly.jumpForward : Lowering (List Nat))
      (options'.mapM fun _ => liftM Assembly.jumpForward) :=
    .mapM (h.imp fun _ _ _ => Nests.lift Assembly.jumpForward)
  unfold randomPick
  rw [h.length_eq]
  infer_instance

instance nests_floatFn (fn : FloatFn) : Nests ps n (floatFn fn operand) (floatFn fn operand') := by
  unfold floatFn
  infer_instance

instance nests_abs : Nests ps n (abs operand) (abs operand') := by
  unfold abs
  infer_instance

instance nests_atan2 : Nests ps n (atan2 operand index) (atan2 operand' index') := by
  unfold atan2
  infer_instance

instance nests_improve (bank? : Option Bank) (op : Extremum) (best : Place) :
    Nests ps n (improve bank? op best operand) (improve bank? op best operand') := by
  unfold improve
  cases op <;> infer_instance

theorem nests_extremum {ty : Ty} {op : Extremum} (h : List.Forall₂ (Nests ps n) args args') :
    Nests ps n (extremum ty op args) (extremum ty op args') := by
  cases h with
  | nil => exact Nests.pure _
  | cons hfirst hrest =>
    refine hfirst.andThen fun _ => .andThen inferInstance fun best => .andThen (.forM ?_)
      fun _ => inferInstance
    refine hrest.imp fun x y hx => ?_
    have : Nests ps n x y := hx
    exact nests_improve x y ty.bank? op best

instance nests_classCast (target : ClassId) :
    Nests ps n (classCast target operand) (classCast target operand') := by
  unfold classCast
  infer_instance

instance nests_runtimeState :
    Nests ps n (runtimeState operand tail) (runtimeState operand' tail) := by
  unfold runtimeState
  infer_instance

instance nests_stateOwner : Steady ps n stateOwner := by
  unfold stateOwner
  refine .andThen inferInstance fun t => ?_
  split <;> infer_instance

instance nests_nameParams : Steady ps n (nameParams names) :=
  .forM (List.forall₂_same.2 fun _ _ => inferInstance)

instance nests_stateLabel : Steady ps n (stateLabel names tail) := by
  unfold stateLabel
  infer_instance

end Calls

end Lowering

/-! ## Trees -/

section Trees

variable {ps : List Place} {n : Nat}

theorem lowerAll_nests {es : List Expr}
    (h : ∀ e ∈ es, Nests ps n e.lower (e.lowerIn ps.head?)) :
    List.Forall₂ (Nests ps n) (lowerAll es) (lowerAllIn es ps.head?) := by
  induction es with
  | nil => exact .nil
  | cons e es ih => exact .cons (h e (by simp)) (ih fun x hx => h x (by simp [hx]))

theorem lowerOption_nests {e : Option Expr}
    (h : ∀ x ∈ e, Nests ps n x.lower (x.lowerIn ps.head?)) :
    Option.Rel (Nests ps n) (lowerOption e) (lowerOptionIn e ps.head?) := by
  cases e with
  | none => exact .none
  | some x => exact .some (h x rfl)

end Trees

/-- Lowering a tree with the left sides on a stack is lowering it with the innermost one handed
down. -/
theorem Expr.lower_nests (e : Expr) (ps : List Place) (n : Nat) :
    Nests ps n e.lower (e.lowerIn ps.head?) := by
  induction e using Expr.induct generalizing ps n with
  | h e ih =>
    cases e <;> rw [Expr.lower, Expr.lowerIn]
    case constant | selfRef | localVar | stateLabel | identifier | member | call | memberCall
    | explicitCast | typeCast | storage | stateIndex | assigned =>
      infer_instance
    case cast _ _ x | intCast _ x _ | classCast _ x _ | unary _ _ x | step _ _ _ x | field _ x _ _
    | floatFn _ _ x | random2 _ _ x _ | abs _ x | runtimeState _ x _ =>
      have hx := ih x (.head _) ps n
      infer_instance
    case assign _ target value =>
      have htarget := ih target (.head _) ps n
      exact nests_assignment _ _ fun place => ih value (by simp [children]) (place :: ps) n
    case binary _ _ a b | logical _ _ a b | element _ a b | random _ _ _ a b _ | atan2 _ a b =>
      have ha := ih a (.head _) ps n
      have hb := ih b (.tail _ (.head _)) ps n
      infer_instance
    case conditional _ c a b =>
      have hc := ih c (.head _) ps n
      have ha := ih a (.tail _ (.head _)) ps n
      have hb := ih b (by simp [children]) ps n
      infer_instance
    case invoke _ object _ args _ =>
      exact nests_invoke (lowerOption_nests fun x hx => ih x (by simp_all [children]) ps n)
        (lowerAll_nests fun x hx => ih x (by simp [children, hx]) ps n)
    case special _ _ args _ =>
      exact nests_special (forall₂_zip (lowerAll_nests fun x hx =>
        ih x (by simp [children, hx]) ps n))
    case randomPick _ _ _ args =>
      exact nests_randomPick (lowerAll_nests fun x hx => ih x (by simp [children, hx]) ps n)
    case extremum _ _ args =>
      exact nests_extremum (lowerAll_nests fun x hx => ih x (by simp [children, hx]) ps n)

end ActorScript
