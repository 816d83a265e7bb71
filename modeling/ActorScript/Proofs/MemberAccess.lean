import ActorScript.Proofs.Compiled
import ActorScript.Proofs.Loading
import ActorScript.Proofs.Typing.Statements
import ActorScript.Proofs.Written

/-! # Members belong to what they are taken from

In the tree of a text, a field that is read through an object is a field of the class of the
object, and a function that is called without an object belongs to an ancestor of the class.
Where the self pointer is restricted to a class that does not inherit from the class, nothing
of the class is known of it: a field that it has no member in the place of is taken all the
same, and so is any function.
-/

namespace ActorScript

open Typing

def World.HasField (w : World) (cls : ClassId) (f : Field) : Prop :=
  ∃ name owner, w.findMember cls name = some (.field f, owner)

/-- A field of the class that is read through a self pointer of another class. The other class
has no member of the name and does not inherit from the class. -/
def Setting.Strays (σ : Setting) (self : ClassId) (f : Field) : Prop :=
  σ.selfClass? = some self ∧ ∃ cls name owner, σ.cls = some cls ∧
    σ.world.findMember cls name = some (.field f, owner) ∧
    σ.world.findMember self name = none ∧ σ.world.descends self cls = false

section

variable {σ : Setting}

/-- A field that an object of a class is read at. -/
theorem Setting.Sees.hasField_or_strays (hw : σ.world.Sane) {object : Expr} {f : Field}
    {k : ClassId} (h : σ.Sees object f) (hk : object.ty = .object k) :
    σ.world.HasField k f ∨ σ.Strays k f := by
  cases h with
  | ofObject hty hfound =>
    cases hk.symm.trans hty
    exact .inl ⟨_, _, hfound⟩
  | @unseen m cls self owner name _ hty hself hcls _ hfound hnone =>
    cases hk.symm.trans hty
    refine .inr ⟨hself, cls, name, owner, hcls, hfound, hnone, ?_⟩
    cases hdescends : σ.world.descends k cls with
    | false => rfl
    | true =>
      have hinherited : (σ.world.findMember k name).isSome :=
        hw.findMember_inherited hdescends (by simp [hfound])
      simp [hnone] at hinherited

/-- A function that was looked up in a class belongs to an ancestor of it. -/
theorem Setting.Knows.descends_owner (hw : σ.world.Sane) {f : Signature} (h : σ.Knows f) :
    ∃ cls, σ.cls = some cls ∧ σ.world.descends cls f.owner = true := by
  obtain ⟨cls, k, name, owner, hcls, hdescends, hfound⟩ := h
  refine ⟨cls, hcls, ?_⟩
  rw [hw.owner_eq hfound]
  exact hw.descends_trans hdescends (World.findMember_spec hfound).1

/-- The nodes of a tree that typing has returned are settled. -/
theorem settled_part {s s' : Scope} {text : String} {e e' node : Expr}
    (hparse : parseExpression text = .ok e) (hrun : e.settle.runFrom σ s = (.ok e', s'))
    (hnode : e'.Part node) : ∃ c b, c.setting = σ ∧ Settled c b node := by
  have hsettled : Ensures σ s e.settle _ := (parseExpression_written hparse).settle_in
  obtain ⟨_, _, hpart⟩ := (hsettled.of_run hrun _ (Context.ofScope_fits σ s .int)).part hnode
  exact ⟨_, _, rfl, hpart⟩

/-- Every field that is read through an object is a field of its class, and every function that
is called without an object belongs to an ancestor of the class of the self pointer, unless the
self pointer is of a class that does not inherit from the class. -/
theorem member_access_sound {s s' : Scope} {text : String} {e e' : Expr} (hw : σ.world.Sane)
    (hparse : parseExpression text = .ok e) (hrun : e.settle.runFrom σ s = (.ok e', s')) :
    (∀ m object offset readonly k, e'.Part (.field m object offset readonly) →
      object.ty = .object k →
      ∃ f : Field, (σ.world.HasField k f ∨ σ.Strays k f) ∧ f.offset = offset ∧
        f.flags.isReadonly = readonly ∧ σ.world.Widens f.ty (m.ty.getD .error)) ∧
    (∀ m f args tail, e'.Part (.invoke m none f args tail) → f.kind ≠ .static →
      ∃ self cls, σ.selfClass? = some self ∧ σ.cls = some cls ∧
        σ.world.descends cls f.owner = true ∧
        (σ.world.descends self cls = true → σ.world.descends self f.owner = true)) := by
  constructor
  · intro m object offset readonly k hpart hk
    obtain ⟨c, b, rfl, hfield⟩ := settled_part hparse hrun hpart
    cases hfield with
    | field _ _ hfound =>
      obtain ⟨f, hsees, hoffset, hreadonly, hwidens⟩ := hfound
      exact ⟨f, hsees.hasField_or_strays hw hk, hoffset, hreadonly, hwidens⟩
  · intro m f args tail hpart hkind
    obtain ⟨c, b, rfl, hinvoke⟩ := settled_part hparse hrun hpart
    cases hinvoke with
    | invoke _ _ _ _ _ hself =>
      obtain ⟨hself, hknows⟩ := hself rfl hkind
      obtain ⟨self, hself⟩ := Option.isSome_iff_exists.1 hself
      obtain ⟨cls, hcls, howner⟩ := hknows.descends_owner hw
      exact ⟨self, cls, hself, hcls, howner, fun hdescends => hw.descends_trans hdescends howner⟩

end

/-! ## Settled trees of texts -/

/-- The tree of a text outside of any block. -/
def Setting.treeOf (σ : Setting) (text : String) : Option Expr :=
  (parseExpression text).toOption.bind fun e => (e.settle.runFrom σ {}).1.toOption

theorem Setting.treeOf_eq_some {σ : Setting} {text : String} {e' : Expr}
    (h : σ.treeOf text = some e') :
    ∃ e s', parseExpression text = .ok e ∧ e.settle.runFrom σ {} = (.ok e', s') := by
  obtain ⟨e, hparse, hsettle⟩ := Option.bind_eq_some_iff.1 h
  exact ⟨e, _, eq_ok_of_toOption hparse, Prod.ext (eq_ok_of_toOption hsettle) rfl⟩

def Expr.fieldOf? : Expr → Option (Ty × Nat × Bool)
  | .field _ object offset readonly => some (object.ty, offset, readonly)
  | _ => none

theorem Expr.eq_of_fieldOf? {e : Expr} {ty : Ty} {offset : Nat} {readonly : Bool}
    (h : e.fieldOf? = some (ty, offset, readonly)) :
    ∃ m object, e = .field m object offset readonly ∧ object.ty = ty := by
  unfold fieldOf? at h
  split at h
  · cases h
    exact ⟨_, _, rfl, rfl⟩
  · cases h

def Expr.callOnSelf? : Expr → Option (Signature × List Expr)
  | .invoke _ none f args _ => some (f, args)
  | _ => none

theorem Expr.eq_of_callOnSelf? {e : Expr} {f : Signature} {args : List Expr}
    (h : e.callOnSelf? = some (f, args)) : ∃ m tail, e = .invoke m none f args tail := by
  unfold callOnSelf? at h
  split at h
  · cases h
    exact ⟨_, _, rfl⟩
  · cases h

/-- Things have health, imps have fireballs to throw besides, and dark imps are imps. -/
def bestiary : Declarations where
  classes :=
    [{ name := "Thing", fields := [⟨"health", "int", []⟩] },
      { name := "Imp", parent := "Thing", fields := [⟨"fireballs", "int8", []⟩]
        functions := [⟨"Throw", .method, ["int"], []⟩] },
      { name := "DarkImp", parent := "Imp" }]

def World.ofBestiary : World :=
  ((World.declare bestiary).run.run .empty).2

theorem World.ofBestiary_sane : World.ofBestiary.Sane :=
  (World.declare_steps .empty ⟨by decide, by decide⟩).keeps (fun _ _ h => h.sane) World.empty_sane

/-- Code of imps, with a self pointer of a class. -/
def Setting.ofImps (self : ClassId) : Setting :=
  .ofOptions .ofBestiary { kind := .method, cls := some 1, selfClass := some self } true

/-- A dark imp has the fireballs of imps, of which there are bytes, and can throw them. -/
theorem member_access_sound_imp : ∃ e' f arg offset readonly,
    (Setting.ofImps 2).treeOf "Throw(fireballs)" = some e' ∧
    e'.callOnSelf? = some (f, [arg]) ∧ f.kind ≠ .static ∧
    arg.fieldOf? = some (.object 2, offset, readonly) ∧
    (∃ f : Field, (World.ofBestiary.HasField 2 f ∨ (Setting.ofImps 2).Strays 2 f) ∧
      f.offset = offset ∧ f.flags.isReadonly = readonly ∧ World.ofBestiary.Widens f.ty arg.ty) ∧
    World.ofBestiary.descends 2 f.owner = true := by
  have htree : ((Setting.ofImps 2).treeOf "Throw(fireballs)").any (fun e' =>
      e'.callOnSelf?.any fun call => decide (call.1.kind ≠ .static) &&
        decide (call.2.map Expr.fieldOf? = [some (.object 2, 8, false)])) = true := by
    decide +kernel
  obtain ⟨e', htree, hshape⟩ := (Option.any_eq_true _ _).1 htree
  obtain ⟨⟨f, args⟩, hcall, hshape⟩ := (Option.any_eq_true _ _).1 hshape
  simp only [Bool.and_eq_true, decide_eq_true_eq, List.map_eq_singleton_iff] at hshape
  obtain ⟨hkind, arg, rfl, harg⟩ := hshape
  obtain ⟨e, s', hparse, hrun⟩ := Setting.treeOf_eq_some htree
  obtain ⟨hfields, hcalls⟩ := member_access_sound World.ofBestiary_sane hparse hrun
  obtain ⟨m, tail, rfl⟩ := Expr.eq_of_callOnSelf? hcall
  obtain ⟨m', object, rfl, hobject⟩ := Expr.eq_of_fieldOf? harg
  obtain ⟨self, cls, hself, hcls, -, howner⟩ := hcalls m f _ tail .root hkind
  cases hself
  cases hcls
  exact ⟨_, f, _, 8, false, htree, hcall, hkind, harg,
    hfields m' object 8 false 2 (.operand (by simp [Expr.children]) .root) hobject,
    howner (by decide +kernel)⟩

def Member.offset? : Member → Option Nat
  | .field f => some f.offset
  | _ => none

/-- Fireballs are read from a thing, behind its last field, and a thing throws one. -/
theorem member_access_stray :
    ((Setting.ofImps 0).treeOf "fireballs").any
      (fun e => decide (e.fieldOf? = some (.object 0, 8, false))) = true ∧
    (∀ f, World.ofBestiary.HasField 0 f → f.offset ≠ 8) ∧
    ((Setting.ofImps 0).treeOf "Throw(1)").any (fun e => e.callOnSelf?.any fun call =>
      decide (call.1.kind ≠ .static) && !World.ofBestiary.descends 0 call.1.owner) = true := by
  refine ⟨by decide +kernel, ?_, by decide +kernel⟩
  rintro f ⟨name, owner, hfound⟩
  obtain ⟨hdescends, cls, hcls, hf⟩ := World.findMember_spec hfound
  have hlineage : World.ofBestiary.lineage 0 = [0] := by decide +kernel
  obtain rfl : owner = 0 := by simpa [World.descends, hlineage] using hdescends
  obtain ⟨_, _, hmembers, -⟩ := List.lookup_eq_some_iff.1 hf
  have hoffsets : (World.ofBestiary.class? 0).all (fun cls =>
      cls.members.all fun entry => entry.2.offset?.all (decide <| · ≠ 8)) = true := by
    decide +kernel
  simp only [hcls, Option.all_some, List.all_eq_true] at hoffsets
  simpa [Member.offset?] using hoffsets (Text.fold name, .field f) (by simp [hmembers])

end ActorScript
