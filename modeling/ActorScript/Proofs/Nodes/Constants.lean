import ActorScript.Constant

/-! # Constants in step with their types

The type of a constant says what payload it has. Numbers may be read under other types of numbers,
and pointers under other types of pointers; the payload fits all of them.
-/

namespace ActorScript

/-- Types of words that are numbers in some way. Names are words too, but they stand for texts. -/
def Ty.isWord : Ty → Bool
  | .bool | .integer _ | .sound | .color => true
  | _ => false

/-- Payloads that constants of a type have. -/
def Ty.holds : Ty → Value → Bool
  | .bool, .int _ | .integer _, .int _ | .sound, .int _ | .color, .int _ => true
  | .floating _, .float _ => true
  | .name, .name _ => true
  | .string, .string _ => true
  | .state, .pointer _ | .nullPtr, .pointer _ | .object _, .pointer _ | .classPtr _, .pointer _ =>
      true
  | _, _ => false

/-- The payload is one that constants of the type have. -/
def Constant.InStep (c : Constant) : Prop :=
  c.ty.holds c.value = true

instance (c : Constant) : Decidable c.InStep :=
  inferInstanceAs (Decidable (c.ty.holds c.value = true))

def Constant.Canonical (c : Constant) : Prop :=
  c.ty = .bool → c.value = .int 0 ∨ c.value = .int 1

/-- A constant in step with its type. If `firm` is set, it is also canonical. -/
structure Constant.Fair (firm : Bool) (c : Constant) : Prop where
  inStep : c.InStep
  canonical : firm = true → c.Canonical

/-- How the type that a node is read with may differ from the one it was made with: words are read
as words, but never as truth values, floats as floats, and pointers as pointers that they may be. -/
inductive Ty.Reads : Ty → Ty → Prop
  | refl (a : Ty) : Reads a a
  | word {a b : Ty} : a.isWord = true → b.isWord = true → b ≠ .bool → Reads a b
  | float {a b : Ty} : a.isFloat = true → b.isFloat = true → Reads a b
  | null {b : Ty} : b.isPointer = true → Reads .nullPtr b
  | object {a b : ClassId} : Reads (.object a) (.object b)
  | classPtr {a b : ClassId} : Reads (.classPtr a) (.classPtr b)
  | trans {a b c : Ty} : Reads a b → Reads b c → Reads a c

namespace Ty

variable {a b : Ty}

@[simp] theorem holds_int (v : Int32) : a.holds (.int v) = a.isWord := by
  cases a <;> rfl

@[simp] theorem holds_float (v : Float) : a.holds (.float v) = a.isFloat := by
  cases a <;> rfl

@[simp] theorem holds_pointer (address : Address) : a.holds (.pointer address) = a.isPointer := by
  cases a <;> rfl

theorem isFloat_of_bank (h : a.bank? = some .int) : a.isFloat = false := by
  cases a <;> simp_all [bank?, isFloat]

theorem isWord_of_bank (h : a.bank? = some .int) (hname : a ≠ .name) : a.isWord = true := by
  cases a <;> simp_all [bank?, isWord]

theorem isNumeric_of_isFloat (h : a.isFloat = true) : a.isNumeric = true := by
  cases a <;> simp_all [isFloat, isNumeric]

theorem isWord_of_isNumeric (h : a.isNumeric = true) (hfloat : a.isFloat = false) :
    a.isWord = true := by
  cases a <;> simp_all [isNumeric, isFloat, isWord]

/-- Nothing that is not a truth value is ever read as one. -/
theorem Reads.eq_bool (h : Reads a b) (hb : b = .bool) : a = .bool := by
  induction h with
  | refl => exact hb
  | word _ _ hne => exact absurd hb hne
  | float _ h | null h => subst hb; cases h
  | object | classPtr => cases hb
  | trans _ _ ih ih' => exact ih (ih' hb)

/-- A payload fits every type that its constant is read with. -/
theorem Reads.holds (h : Reads a b) {v : Value} (ha : a.holds v = true) : b.holds v = true := by
  induction h with
  | refl => exact ha
  | @word a b hword hword' =>
    cases v with
    | int => simpa using hword'
    | _ => cases a <;> simp_all [Ty.holds, isWord]
  | @float a b hfloat hfloat' =>
    cases v with
    | float => simpa using hfloat'
    | _ => cases a <;> simp_all [Ty.holds, isFloat]
  | null hb =>
    cases v with
    | pointer => simpa using hb
    | _ => cases ha
  | object | classPtr =>
    cases v with
    | pointer => rfl
    | _ => cases ha
  | trans _ _ ih ih' => exact ih' (ih ha)

end Ty

namespace Constant

variable {firm : Bool} {c : Constant}

theorem inStep_int {ty : Ty} {v : Int32} (h : ty.isWord = true) : Constant.InStep ⟨ty, .int v⟩ := by
  rw [InStep, Ty.holds_int]
  exact h

theorem inStep_float {ty : Ty} {v : Float} (h : ty.isFloat = true) :
    Constant.InStep ⟨ty, .float v⟩ := by
  rw [InStep, Ty.holds_float]
  exact h

/-- Constants of types other than that of truth values are canonical as they are. -/
theorem Fair.of_ne_bool (h : c.InStep) (hty : c.ty ≠ .bool) : c.Fair firm :=
  ⟨h, fun _ hbool => absurd hbool hty⟩

theorem fair_bool (v : Bool) : (Constant.bool v).Fair firm :=
  ⟨rfl, fun _ _ => by cases v <;> simp [Constant.bool]⟩

theorem fair_int (v : Int32) : (Constant.int v).Fair firm := .of_ne_bool rfl nofun

theorem fair_uint (v : UInt32) : (Constant.uint v).Fair firm := .of_ne_bool rfl nofun

theorem fair_float (v : Float) : (Constant.float v).Fair firm := .of_ne_bool rfl nofun

theorem fair_name (text : String) : (Constant.name text).Fair firm := .of_ne_bool rfl nofun

theorem fair_string (text : String) : (Constant.string text).Fair firm := .of_ne_bool rfl nofun

theorem fair_sound (id : Int32) : (Constant.sound id).Fair firm := .of_ne_bool rfl nofun

theorem fair_color (rgb : UInt32) : (Constant.color rgb).Fair firm := .of_ne_bool rfl nofun

theorem fair_pointer {ty : Ty} (hty : ty.isPointer = true) (address : Address) :
    Constant.Fair firm ⟨ty, .pointer address⟩ := by
  cases ty <;> simp [Ty.isPointer, Ty.bank?] at hty <;> exact .of_ne_bool rfl nofun

theorem fair_null : Constant.null.Fair firm := fair_pointer rfl _

theorem fair_state (id : Option StateId) : (Constant.state id).Fair firm := by
  cases id <;> exact fair_pointer rfl _

theorem Fair.read (h : c.Fair firm) {ty : Ty} (hty : c.ty.Reads ty) :
    Constant.Fair firm { c with ty } :=
  ⟨hty.holds h.inStep, fun hfirm hbool => h.canonical hfirm (hty.eq_bool hbool)⟩

theorem Fair.toInt (h : c.Fair true) (hty : c.ty = .bool) : c.toInt = 0 ∨ c.toInt = 1 := by
  rcases h.canonical rfl hty with hv | hv <;> simp [Constant.toInt, hv]

theorem InStep.bank (h : c.InStep) : c.ty.bank?.isSome := by
  obtain ⟨ty, v⟩ := c
  cases v <;> cases ty <;> simp_all [InStep, Ty.holds, Ty.bank?]

end Constant

end ActorScript
