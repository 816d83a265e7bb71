import ActorScript.Function
import ActorScript.Proofs.Lowering.Statements

/-! # The code of functions

A function starts with the pointers that it is given and with its parameters in registers. All
the code is that of its body, of the return behind it and of nothing else.
-/

namespace ActorScript

open Lowering

/-! ## The start of a function -/

/-- An assembler that has done nothing but take pointer registers. -/
def Assembler.reserving (name : String) (pool : RegisterPool) : Assembler :=
  { name, pools := (Banks.replicate {}).set .pointer pool }

theorem Assembler.reserve {name : String} {p q : RegisterPool} {n : Nat}
    (h : p.get? 1 = some (n, q)) :
    ((discard (Assembly.alloc Bank.pointer) : Assembly Unit).run (reserving name p)).2 =
      reserving name q := by
  obtain ⟨hrun, -⟩ := Assembly.does_alloc (s := reserving name p) |>.2 ⟨.pointer, q, rfl, h, rfl⟩
  change ((Assembly.alloc Bank.pointer).run (reserving name p)).2 = _
  rw [hrun]
  rfl

/-- The pool of pointers at the start of a function. -/
def FunctionKind.reserved : FunctionKind → RegisterPool
  | .static => {}
  | .method => ⟨#v[1, 0, 0, 0], 1⟩
  | .action => ⟨#v[7, 0, 0, 0], 3⟩

theorem FunctionKind.isUsed_reserved {kind : FunctionKind} {n : Nat} (h : n < kind.implicitArgs) :
    kind.reserved.isUsed n = true := by
  revert n
  cases kind <;> decide +kernel

theorem Draft.start_eq (name : String) (kind : FunctionKind) (locals : Nat) :
    Draft.start name kind locals =
      { assembler := .reserving name kind.reserved, homes := Array.replicate locals none } := by
  have h0 : RegisterPool.get? {} 1 = some (0, ⟨#v[1, 0, 0, 0], 1⟩) := by decide +kernel
  have h1 : RegisterPool.get? ⟨#v[1, 0, 0, 0], 1⟩ 1 = some (1, ⟨#v[3, 0, 0, 0], 2⟩) := by decide +kernel
  have h2 : RegisterPool.get? ⟨#v[3, 0, 0, 0], 2⟩ 1 = some (2, ⟨#v[7, 0, 0, 0], 3⟩) := by decide +kernel
  let x : Assembly Unit := discard (Assembly.alloc Bank.pointer)
  let s := Assembler.reserving name {}
  have hstart (s' : Assembler)
      (h : (((List.range kind.implicitArgs).forM fun _ => x).run s).2 = s') :
      Draft.start name kind locals =
        { assembler := s', homes := Array.replicate locals none } := by
    rw [← h]
    rfl
  apply hstart
  cases kind with
  | static => rfl
  | method =>
    change (x.run s).2 = _
    exact Assembler.reserve h0
  | action =>
    change (x.run (x.run (x.run s).2).2).2 = _
    rw [Assembler.reserve h0, Assembler.reserve h1, Assembler.reserve h2]
    rfl

section Functions

variable {t : Target} {c : Context} {w : World} {o : Options} {d d' : Draft}

theorem Draft.start_sound (name : String) (locals : Nat) (hc : c.target = none) :
    Sound c (Draft.start name c.kind locals) := by
  rw [Draft.start_eq]
  exact {
    home := fun v place h => by simp [Array.getElem?_replicate] at h
    apart := fun v v' r ⟨place, h, _⟩ => by simp [Array.getElem?_replicate] at h
    implicit := fun n hn =>
      ⟨FunctionKind.isUsed_reserved hn, fun v ⟨place, h, _⟩ => by
        simp [Array.getElem?_replicate] at h⟩
    target := by simp [hc] }

/-- Lowering that is finished without a fault has noted none on the way. -/
theorem yields_lowerFor {α : Type} {x : Lowering α} {locals : Nat}
    (h : (lowerFor w o locals x).2.assembler.faults[0]? = none) :
    Yields ⟨w, o.kind⟩ x (Draft.start o.name o.kind locals) (lowerFor w o locals x).1
      (lowerFor w o locals x).2 := by
  refine ⟨rfl, ?_⟩
  have hnone : (lowerFor w o locals x).2.assembler.faults = #[] := by simpa using h
  rw [Draft.start_eq, Draft.faults, hnone]
  rfl

theorem Assembler.faultless_of_finish {s : Assembler} {chunk : Chunk} (h : s.finish = .ok chunk) :
    s.faults[0]? = none := by
  unfold Assembler.finish at h
  split at h
  next => cases h
  next hnone => exact hnone

/-! ## Bodies -/

theorem bindParam_performs (hc : c.target = none) {id : LocalId} {ty : Ty} (h : c.types id = ty) :
    Stmt.Performs t c (do bindHome id ty.bank? (← Assembly.alloc ty.bank?)) false := by
  intro d u d' hd hy
  simp only [bindHome, yields_steps, yields_allocRegister, yields_modifyHomes] at hy
  obtain ⟨n, _, ⟨b, hb, offered, rfl⟩, rfl⟩ := hy
  have hw := (Work.refl d).take offered
  rw [Set.empty_union] at hw
  rw [hb]
  exact Passes.bindHome hd hw (h ▸ hb) hc

instance safe_bindParams (params : List (LocalId × Ty)) : Safe (bindParams params) := by
  unfold bindParams bindHome
  infer_instance

theorem bindParams_performs (hc : c.target = none) {params : List (LocalId × Ty)}
    (h : ∀ p ∈ params, c.types p.1 = p.2) : Stmt.Performs t c (bindParams params) false := by
  induction params with
  | nil => exact Stmt.Performs.pure
  | cons p rest ih =>
    have hrest := ih fun p hp => h p (by simp [hp])
    have hsafe : Safe (do bindHome p.1 p.2.bank? (← Assembly.alloc p.2.bank?)) := by
      unfold bindHome
      infer_instance
    have hsafe' := safe_bindParams rest
    exact (bindParam_performs hc (h p (by simp))).andThen (z := bindParams rest) hrest

theorem setReturns_performs (returns : List String) :
    Stmt.Performs t c (liftM (Assembly.setReturns returns)) false := by
  intro d u d' hd h
  obtain ⟨s, hdoes, rfl⟩ := yields_lift.1 h
  obtain rfl := (Assembly.does_modify rfl).1 hdoes
  exact ⟨.of_code rfl (.refl _), hd.mono rfl fun _ => id, rfl, Passes.records_of_eq rfl⟩

/-- The operands of a draft are within its pools, and they fit unless something clashes. -/
structure Draft.Fits (d : Draft) (clashes : Bool) : Prop where
  within : ∀ i ∈ d.code, i.Within d.pools
  fits : (∀ i ∈ d.code, i.fits = true) ↔ clashes = false

theorem Stmt.Performs.draft {x : Lowering Unit} {clashes : Bool} {locals : Nat}
    (hx : Stmt.Performs ⟨w, o.kind⟩ c x clashes) (hk : c.kind = o.kind) (hc : c.target = none)
    {chunk : Chunk} (h : (lowerFor w o locals x).2.assembler.finish = .ok chunk) :
    (lowerFor w o locals x).2.Fits clashes := by
  have hsound := Draft.start_sound o.name locals hc
  rw [hk] at hsound
  have hp := hx _ _ _ hsound (yields_lowerFor (Assembler.faultless_of_finish h))
  have hsince : (Draft.start o.name o.kind locals).since (lowerFor w o locals x).2 =
      (lowerFor w o locals x).2.code := by
    rw [Draft.start_eq]
    rfl
  exact ⟨hsince ▸ hp.within, hsince ▸ hp.fits⟩

theorem draftFunction_fits {params : List (String × Ty)} {body : Stmt} {s : Scope} {chunk : Chunk}
    (hbody : SettledStmt c body) (hk : c.kind = o.kind) (hc : c.target = none)
    (hparams : ∀ p ∈ (Scope.ofParams params).1.zip (params.map Prod.snd), c.types p.1 = p.2)
    (h : (draftFunction w o params body s).assembler.finish = .ok chunk) :
    (draftFunction w o params body s).Fits body.clashes := by
  have hend : Stmt.Performs ⟨w, o.kind⟩ c (do
      unless body.endsInReturn do
        returnNothing
      Assembly.setReturns (s.returns.map w.describe)) false := by
    split
    · exact setReturns_performs _
    · exact returnNothing_performs.andThen (setReturns_performs (s.returns.map w.describe))
  have hx := (bindParams_performs hc hparams).andThen ((hbody.performs hk.symm hc).andThen hend)
  rw [Bool.false_or, Bool.or_false] at hx
  exact hx.draft hk hc h

theorem returnDamage_performs {value : Expr} (hvalue : Settled c false value)
    (hb : value.ty.bank? = some .int) (hk : t.kind = c.kind) :
    Stmt.Performs t c (returnDamage value) value.clashes := by
  intro d u d' hd h
  unfold returnDamage at h
  split at h
  next v hv =>
    have hconst := (Option.filter_eq_some_iff.1 hv).1
    rw [Expr.clashes_of_constant hconst]
    obtain ⟨-, rfl⟩ := yields_emitSigned.1 h
    exact Passes.ofWork hd ((Work.refl d).emit rfl (by simp) (by simp [Instr.target?]) rfl)
  next =>
    simp only [yields_steps] at h
    obtain ⟨place, d1, hx, -, -, rfl⟩ := h
    have hl := hvalue.performs hk d place d1 hd hx
    have hpb := hl.bank.trans hb
    refine Passes.ofWork hd (Work.cast (Work.drop (Work.emit hl.toWork ?_
      (by simpa using hl.operand_within) (by simp [Instr.target?]) rfl) hl.fresh) (by ext; simp) id
      rfl rfl)
    cases hc : place.isConstant <;>
      simp [Instr.fits, Instr.fitsThree, Place.tagged_tag hpb, Place.operand, hpb, hc]

theorem draftDamage_fits {value : Expr} {s : Scope} {chunk : Chunk}
    (hvalue : Settled c false value) (hb : value.ty.bank? = some .int) (hk : c.kind = o.kind)
    (hc : c.target = none) (h : (draftDamage w o value s).assembler.finish = .ok chunk) :
    (draftDamage w o value s).Fits value.clashes := by
  have hsafe : Safe (returnDamage value) := by
    unfold returnDamage
    split <;> infer_instance
  have hmark : Stmt.Performs ⟨w, o.kind⟩ c
      (emitSigned .reti (.imm (finalReturn + 1)) 1) false := by
    intro d u d' hd h
    obtain ⟨-, rfl⟩ := yields_emitSigned.1 h
    exact Passes.ofWork hd ((Work.refl d).emit rfl (by simp) (by simp [Instr.target?]) rfl)
  have hx := (returnDamage_performs hvalue hb hk.symm).andThen
    (hmark.andThen (setReturns_performs [w.describe .int]))
  rw [Bool.or_false, Bool.or_false] at hx
  exact hx.draft hk hc h

end Functions

end ActorScript
