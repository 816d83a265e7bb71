import ActorScript.Lowering.Statement
import ActorScript.Typing.Statement

/-! # Compiling functions

A body is typed, lowered and assembled. Its result is a chunk with the warnings met on the
way, or all the diagnostics of a failure.
-/

namespace ActorScript

structure CompileFailure where
  function : String
  diagnostics : List Diagnostic
  deriving DecidableEq, Repr

def CompileFailure.message (f : CompileFailure) : String :=
  "failed to compile '" ++ f.function ++ "'"

/-- A fault of assembly is a limit that the function exceeds as a whole. -/
def AssemblyFault.toDiagnostic (fault : AssemblyFault) : Diagnostic :=
  { severity := .error
    code := some Code.codeLimit.id
    message := fault.message
    notes := ["this is an internal limit of the code generator"] }

structure Compiled where
  chunk : Chunk
  returns : List Ty
  diagnostics : List Diagnostic

/-- Types something from a scope. It fails on a rejection, and on a fatal diagnostic. -/
def settleFor (w : World) (o : Options) (inFunction : Bool) (scope : Scope) (x : Typing α) :
    Except CompileFailure (α × Scope) :=
  match x.runFrom (Setting.ofOptions w o inFunction) scope with
  | (.error r, s) => .error ⟨o.name, s.diagnostics ++ [r.toDiagnostic]⟩
  | (.ok a, s) =>
      if s.hasFatal o.strict then .error ⟨o.name, s.diagnostics⟩ else .ok (a, s)

/-- Value of an expression outside any function, which has to be a constant. -/
def evaluateConstant (w : World) (o : Options) (e : Expr) :
    Except CompileFailure (Constant × List Diagnostic) := do
  let (settled, s) ← settleFor w o false {} e.settle
  match settled.constant? with
  | some c => .ok (c, s.diagnostics)
  | none =>
      let r : Rejection := { fault := .notConstant, span := e.span }
      .error ⟨o.name, s.diagnostics ++ [r.toDiagnostic]⟩

/-- A draft of a function: the pointers that functions of the kind are given hold the first
pointer registers. -/
def Draft.start (name : String) (kind : FunctionKind) (locals : Nat) : Draft :=
  let reserve := (List.range kind.implicitArgs).forM fun _ => discard (Assembly.alloc Bank.pointer)
  { assembler := (reserve.run { name }).2, homes := Array.replicate locals none }

def lowerFor (w : World) (o : Options) (locals : Nat) (x : Lowering α) : α × Draft :=
  (x.run ⟨w, o.kind⟩).run (Draft.start o.name o.kind locals)

def finishFor (o : Options) (s : Scope) (returns : List Ty) (draft : Draft) :
    Except CompileFailure Compiled :=
  match draft.assembler.finish with
  | .ok chunk => .ok { chunk, returns, diagnostics := s.diagnostics }
  | .error fault => .error ⟨o.name, s.diagnostics ++ [fault.toDiagnostic]⟩

mutual

def Stmt.endsInReturn : Stmt → Bool
  | .ret _ _ => true
  | .sequence _ body => lastReturns body
  | .block _ body _ => lastReturns body
  | _ => false

def lastReturns : List Stmt → Bool
  | [] => false
  | [s] => s.endsInReturn
  | _ :: rest => lastReturns rest

end

/-- Declares another parameter, behind those with the given numbers. -/
def Scope.addParam : List LocalId × Scope → String × Ty → List LocalId × Scope
  | (ids, s), (name, ty) =>
      let (id, s) := s.declareParam name ty
      (ids ++ [id], s)

def Scope.ofParams (params : List (String × Ty)) : List LocalId × Scope :=
  params.foldl Scope.addParam ([], {})

def settleFunction (w : World) (o : Options) (params : List (String × Ty)) (body : Stmt) :
    Except CompileFailure (Stmt × Scope) :=
  settleFor w o true (Scope.ofParams params).2 body.settle

def Scope.returns (s : Scope) : List Ty :=
  s.returnTypes.getD []

/-- Parameters are given in the first registers of their banks. -/
def Lowering.bindParams (params : List (LocalId × Ty)) : Lowering Unit :=
  params.forM fun (id, ty) => do
    Lowering.bindHome id ty.bank? (← Assembly.alloc ty.bank?)

/-- The code of a function, from its settled body and the scope that typing left. -/
def draftFunction (w : World) (o : Options) (params : List (String × Ty)) (body : Stmt)
    (s : Scope) : Draft :=
  (lowerFor w o s.locals.size do
    Lowering.bindParams ((Scope.ofParams params).1.zip (params.map Prod.snd))
    body.lower
    unless body.endsInReturn do
      Lowering.returnNothing
    Assembly.setReturns (s.returns.map w.describe)).2

def compileFunction (w : World) (o : Options) (params : List (String × Ty)) (body : Stmt) :
    Except CompileFailure Compiled := do
  let (body, s) ← settleFunction w o params body
  finishFor o s s.returns (draftFunction w o params body s)

def settleDamage (e : Expr) : Typing Expr := do
  let value ← e.settle
  if !value.ty.isNumeric then Typing.reject value.span .numericExpected
  Typing.toInt value.span value false

/-- Returns damage first. A number that fits is in the instruction itself. -/
def Lowering.returnDamage (value : Expr) : Lowering Unit :=
  match value.constant?.filter fun c => fitsOffset c.toInt.toInt with
  | some c => emitSigned .reti (.imm 0) c.toInt.toInt
  | none => do
      let place ← value.lower
      emit .ret (.imm 0) (.imm place.tag) place.operand
      place.free

/-- The code of a damage expression, which returns the settled value first and a true mark
second. -/
def draftDamage (w : World) (o : Options) (value : Expr) (s : Scope) : Draft :=
  (lowerFor w o s.locals.size do
    Lowering.returnDamage value
    Lowering.emitSigned .reti (.imm (finalReturn + 1)) 1
    Assembly.setReturns [w.describe .int]).2

def compileDamage (w : World) (o : Options) (e : Expr) : Except CompileFailure Compiled := do
  let (value, s) ← settleFor w o true {} (settleDamage e)
  finishFor o s [.int] (draftDamage w o value s)

end ActorScript
