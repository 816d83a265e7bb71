import ActorScript.Proofs.MemberAccess
import ActorScript.Proofs.Nodes.Basic

/-! # Typed trees are well formed

Typing leaves no node without a type and no node that only stands for what is still to be looked
up, and the payloads of constants go with their types.
-/

namespace ActorScript

/-- Nodes that stand for something that typing finds in their place. -/
def Expr.isPlaceholder : Expr → Bool
  | .identifier .. | .member .. | .call .. | .memberCall .. | .explicitCast .. | .typeCast ..
  | .storage .. | .stateIndex .. => true
  | _ => false

/-- A node as typing leaves it. -/
structure Expr.WellFormed (e : Expr) : Prop where
  typed : e.mark.ty.isSome
  found : e.isPlaceholder = false
  constant : ∀ m c, e = .constant m c → m.ty = some c.ty ∧ c.InStep

/-- No rule makes a placeholder. -/
theorem Expr.Makes.isPlaceholder {types : LocalId → Ty} {e : Expr} {ty : Ty}
    (h : e.Makes types ty) : e.isPlaceholder = false := by
  cases h <;> rfl

theorem Expr.Proper.wellFormed {firm : Bool} {types : LocalId → Ty} {e : Expr}
    (h : e.Proper firm types) : e.WellFormed where
  typed := h.typed
  found := by
    obtain ⟨ty, hmakes, -⟩ := h.made
    exact hmakes.isPlaceholder
  constant := by
    rintro m c rfl
    obtain ⟨hty, hfair⟩ := h.constant c rfl
    obtain ⟨ty, hm⟩ := Option.isSome_iff_exists.1 h.typed
    have hm : m.ty = some ty := hm
    have hty : ty = c.ty := by simpa [Expr.ty, Expr.mark, hm] using hty
    exact ⟨hty ▸ hm, hfair.inStep⟩

/-- Every node of a tree that typing returns is well formed, whatever it is typed against. -/
theorem typed_trees_well_formed {σ : Setting} {s s' : Scope} {text : String} {e e' : Expr}
    (hw : σ.world.Loaded) (hparse : parseExpression text = .ok e)
    (hrun : e.settle.runFrom σ s = (.ok e', s')) : e'.Every Expr.WellFormed := by
  have hchecked : Typing.Ensures σ s e.settle _ :=
    (parseExpression_written hparse).settle_checks hw.inStep false nofun
  exact fun node hnode => (hchecked.of_run hrun node hnode).wellFormed

/-- A class by its name, a state by its number, and a sum of a field and a constant of the class. -/
theorem typed_trees_well_formed_actor :
    ∃ e', (Setting.ofOptions .stock { kind := .action, cls := some 0 } true).treeOf
        "A_Jump(health + DEFAULT_HEALTH, 1) == null ? class<Actor>(\"DoomImp\") : null" = some e' ∧
      e'.children.length = 3 ∧ e'.Every Expr.WellFormed := by
  have htree : ((Setting.ofOptions .stock { kind := .action, cls := some 0 } true).treeOf
      "A_Jump(health + DEFAULT_HEALTH, 1) == null ? class<Actor>(\"DoomImp\") : null").any
        (fun e' => decide (e'.children.length = 3)) = true := by
    decide +kernel
  obtain ⟨e', htree, hchildren⟩ := (Option.any_eq_true _ _).1 htree
  obtain ⟨e, s', hparse, hrun⟩ := Setting.treeOf_eq_some htree
  exact ⟨e', htree, by simpa using hchildren, typed_trees_well_formed .stock hparse hrun⟩

end ActorScript
