import ActorScript.Proofs.Lineage
import ActorScript.Proofs.Nodes.Constants

/-! # Constants of worlds

The constants that an environment text declares are numbers and texts, with the payloads of their
types, as the constants of a world are to be.
-/

namespace ActorScript

variable {α : Type} {j : Json} {c : Constant} {l : List (String × Constant)} {name : String}

/-! ## Declared constants -/

namespace Json

theorem mapM_mem {β : Type} {f : α → Option β} {l : List α} {l' : List β} (h : l.mapM f = some l')
    {b : β} (hb : b ∈ l') : ∃ a ∈ l, f a = some b := by
  induction l generalizing l' with
  | nil =>
    cases h
    cases hb
  | cons a rest ih =>
    rw [List.mapM_cons] at h
    obtain ⟨first, hfirst, h⟩ := Option.bind_eq_some_iff.1 h
    obtain ⟨others, hothers, h⟩ := Option.bind_eq_some_iff.1 h
    cases h
    rcases List.mem_cons.1 hb with rfl | hb
    · exact ⟨a, by simp, hfirst⟩
    · obtain ⟨a', ha', hfa'⟩ := ih hothers hb
      exact ⟨a', by simp [ha'], hfa'⟩

theorem constant?_inStep (h : constant? j = some c) : c.InStep := by
  have hfloat (x : Option Float) (h : x.map Constant.float = some c) : c.InStep := by
    obtain ⟨v, -, rfl⟩ := Option.map_eq_some_iff.1 h
    rfl
  unfold constant? at h
  split at h
  · cases h
    rfl
  · dsimp only at h
    split at h
    · split at h
      · cases h
        rfl
      · exact hfloat _ h
    · exact hfloat _ h
  · cases h

theorem mem_putSorted {key : String} {v : α} {l : List (String × α)} {p : String × α}
    (h : p ∈ putSorted key v l) : p = (key, v) ∨ p ∈ l := by
  induction l with
  | nil => simpa [putSorted] using h
  | cons entry rest ih =>
    obtain ⟨k, x⟩ := entry
    rw [putSorted] at h
    split at h
    · rcases List.mem_cons.1 h with h | h
      · exact .inl h
      · exact .inr (by simp [h])
    split at h
    · rcases List.mem_cons.1 h with h | h
      · exact .inl h
      · exact .inr h
    · rcases List.mem_cons.1 h with h | h
      · exact .inr (by simp [h])
      · exact (ih h).imp_right fun h => by simp [h]

theorem mem_foldl_putSorted {values sorted : List (String × α)} {p : String × α}
    (h : p ∈ values.foldl (fun sorted (key, value) => putSorted key value sorted) sorted) :
    p ∈ values ∨ p ∈ sorted := by
  induction values generalizing sorted with
  | nil => exact .inr h
  | cons value rest ih =>
    rcases ih h with hp | hp
    · exact .inl (by simp [hp])
    · rcases mem_putSorted hp with rfl | hp
      · exact .inl (by simp)
      · exact .inr hp

theorem constants?_inStep (h : constants? j = some l) : ∀ p ∈ l, p.2.InStep := by
  unfold constants? at h
  split at h
  next members =>
    obtain ⟨values, hvalues, h⟩ := Option.bind_eq_some_iff.1 h
    cases h
    intro p hp
    rcases mem_foldl_putSorted hp with hp | hp
    · obtain ⟨⟨key, j⟩, -, hj⟩ := mapM_mem hvalues hp
      obtain ⟨c, hc, rfl⟩ := Option.map_eq_some_iff.1 hj
      exact constant?_inStep hc
    · cases hp
  next => cases h

theorem orDefault_inStep {j : Option Json} (h : orDefault [] constants? j = some l) :
    ∀ p ∈ l, p.2.InStep := by
  cases j with
  | none =>
    cases h
    simp
  | some j => exact constants?_inStep h

end Json

/-- The constants of a class have payloads that go with their types. -/
def ClassDecl.InStep (d : ClassDecl) : Prop :=
  ∀ p ∈ d.constants, p.2.InStep

instance (d : ClassDecl) : Decidable d.InStep :=
  inferInstanceAs (Decidable (∀ p ∈ d.constants, p.2.InStep))

theorem ClassDecl.ofJson?_inStep {d : ClassDecl} (h : ofJson? j = some d) : d.InStep := by
  unfold ofJson? at h
  simp only [Option.bind_eq_bind, Option.bind_eq_some_iff] at h
  obtain ⟨fields, -, h⟩ := h
  split at h
  · simp only [Option.bind_eq_some_iff] at h
    obtain ⟨_, -, _, -, _, -, constants, hconstants, _, -, _, -, h⟩ := h
    cases h
    exact Json.orDefault_inStep hconstants
  · cases h

/-- All constants that are declared have payloads that go with their types. -/
structure Declarations.InStep (d : Declarations) : Prop where
  classes : ∀ c ∈ d.classes, c.InStep
  constants : ∀ p ∈ d.constants, p.2.InStep

theorem Declarations.parse_inStep {text : String} {d : Declarations} (h : parse text = some d) :
    d.InStep := by
  obtain ⟨j, -, h⟩ := Option.bind_eq_some_iff.1 h
  unfold ofJson? at h
  simp only [Option.bind_eq_bind, Option.bind_eq_some_iff] at h
  obtain ⟨fields, -, h⟩ := h
  split at h
  next classes constants specials sounds =>
    simp only [Option.bind_eq_some_iff] at h
    obtain ⟨read, hread, globals, hglobals, _, -, _, -, h⟩ := h
    cases h
    refine ⟨fun c hc => ?_, Json.orDefault_inStep hglobals⟩
    cases classes with
    | none =>
      cases hread
      cases hc
    | some j =>
      unfold Json.orDefault Json.list? at hread
      dsimp only at hread
      split at hread
      · obtain ⟨j, -, hj⟩ := Json.mapM_mem hread hc
        exact ClassDecl.ofJson?_inStep hj
      · cases hread
  · cases h

/-! ## Worlds -/

namespace World

variable {w : World}

/-- The constants of a world have payloads that go with their types. -/
structure InStep (w : World) : Prop where
  globals : ∀ p ∈ w.globals, p.2.InStep
  members : ∀ k cls, w.class? k = some cls → ∀ key c, (key, .const c) ∈ cls.members → c.InStep

theorem InStep.global (hw : w.InStep) (h : w.global? name = some c) : c.InStep := by
  obtain ⟨l1, l2, heq, -⟩ := List.lookup_eq_some_iff.1 h
  exact hw.globals (Text.fold name, c) (by simp [heq])

theorem InStep.member (hw : w.InStep) {cls owner : ClassId}
    (h : w.findMember cls name = some (.const c, owner)) : c.InStep := by
  obtain ⟨-, k, hk, hc⟩ := findMember_spec h
  obtain ⟨l1, l2, heq, -⟩ := List.lookup_eq_some_iff.1 hc
  exact hw.members owner k hk (Text.fold name) c (by simp [heq])

theorem stockDeclarations_inStep : stockDeclarations.InStep where
  classes := by decide
  constants := by decide

/-- A world that is made by loading texts. -/
inductive Loaded : World → Prop
  | empty : Loaded empty
  | stock : Loaded stock
  | load {w : World} (text : String) : Loaded w → Loaded (w.load text).2

end World

end ActorScript
