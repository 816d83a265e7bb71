import ActorScript.Proofs.Lowering.Safety
import ActorScript.Proofs.Parameters.Layout

/-! # Drafts and the parameters that wait

A run of lowering adds code with a layout to a draft. Its jumps lead to places where the same
parameters wait, so that it does not matter to a call on which way control comes to it.
-/

namespace ActorScript

open Lowering

variable {seg : List Instr} {k : Nat}

/-! ## Level jumps -/

/-- Jumps lead to positions of the code at which the same parameters wait. -/
def Level (code : List Instr) : Prop :=
  ∀ (p : Nat) (i : Instr), code[p]? = some i → i.op = .jmp →
    ∃ (a : Operand) (offset : Int) (q : Nat), i = .asbx .jmp a offset ∧
      (q : Int) = p + 1 + offset ∧ q ≤ code.length ∧
      waitingAt (code.map Instr.role) q = waitingAt (code.map Instr.role) p

theorem level_nil : Level [] := by
  simp [Level]

theorem Op.eq_jmp_of_role {op : Op} {count : Nat} (h : op.role count = .jump) : op = .jmp := by
  cases op <;> simp_all [role]

namespace Level

variable {code : List Instr}

theorem extend (h : Level code)
    (hseg : ∀ (k : Nat) (i : Instr), seg[k]? = some i → i.op = .jmp →
      ∃ (a : Operand) (offset : Int) (q : Nat), i = .asbx .jmp a offset ∧
        (q : Int) = (code.length + k : Nat) + 1 + offset ∧ q ≤ (code ++ seg).length ∧
        waitingAt ((code ++ seg).map Instr.role) q =
          waitingAt ((code ++ seg).map Instr.role) (code.length + k)) : Level (code ++ seg) := by
  intro p i hi hop
  by_cases hp : p < code.length
  · rw [List.getElem?_append_left hp] at hi
    obtain ⟨a, offset, q, rfl, hq, hle, hwait⟩ := h p i hi hop
    refine ⟨a, offset, q, rfl, hq, ?_, ?_⟩
    · rw [List.length_append]
      omega
    · rw [List.map_append, waitingAt_append _ (by simpa using hle),
        waitingAt_append _ (by simpa using Nat.le_of_lt hp), hwait]
  · obtain ⟨k, rfl⟩ := Nat.exists_eq_add_of_le (Nat.le_of_not_lt hp)
    rw [List.getElem?_append_right (by omega), Nat.add_sub_cancel_left] at hi
    exact hseg k i hi hop

theorem push (h : Level code) {i : Instr} (hop : i.op ≠ .jmp) : Level (code ++ [i]) := by
  refine h.extend fun k j hj hjmp => ?_
  obtain ⟨hlt, rfl⟩ := List.getElem?_eq_some_iff.1 hj
  obtain rfl : k = 0 := by simpa using hlt
  exact absurd hjmp hop

/-- Code that neither passes a parameter nor calls. -/
theorem waitingAt_block (hidle : ∀ i ∈ seg, i.role.isIdle = true) (hk : k ≤ seg.length) :
    waitingAt ((code ++ seg).map Instr.role) (code.length + k) =
      waitingAt (code.map Instr.role) code.length := by
  induction k with
  | zero => rw [List.map_append, Nat.add_zero, waitingAt_append _ (by simp)]
  | succ k ih =>
    have hi : ((code ++ seg).map Instr.role)[code.length + k]? = some (seg[k].role) := by
      rw [List.getElem?_map, List.getElem?_append_right (by omega), Nat.add_sub_cancel_left,
        List.getElem?_eq_getElem (by omega)]
      rfl
    rw [← Nat.add_assoc, waitingAt_succ hi, Role.after_of_isIdle (hidle _ (List.getElem_mem _)),
      ih (by omega)]

/-- Such code, with jumps that lead no further than to its end. -/
theorem block (h : Level code) (hidle : ∀ i ∈ seg, i.role.isIdle = true)
    (hflow : flowing seg = true) : Level (code ++ seg) := by
  refine h.extend fun k i hi hop => ?_
  have hk := (List.getElem?_eq_some_iff.1 hi).1
  have hproceeds := proceeds_of_flowing hflow hi
  unfold Instr.proceeds at hproceeds
  split at hproceeds
  next offset =>
    simp only [Bool.and_eq_true, decide_eq_true_eq] at hproceeds
    refine ⟨.imm 0, offset, code.length + k + 1 + offset.toNat, rfl, by omega, ?_, ?_⟩
    · rw [List.length_append]
      omega
    · rw [Nat.add_assoc, Nat.add_assoc, waitingAt_block hidle (by omega),
        waitingAt_block hidle (by omega)]
  next => simp [hop, Op.proceeds] at hproceeds

theorem jump (h : Level code) {offset : Int} {q : Nat} (hq : (q : Int) = code.length + 1 + offset)
    (hle : q ≤ code.length)
    (hwait : waitingAt (code.map Instr.role) q = waitingAt (code.map Instr.role) code.length) :
    Level (code ++ [.asbx .jmp (.imm 0) offset]) := by
  refine h.extend fun k i hi _ => ?_
  obtain ⟨hlt, rfl⟩ := List.getElem?_eq_some_iff.1 hi
  obtain rfl : k = 0 := by simpa using hlt
  refine ⟨.imm 0, offset, q, rfl, by simpa using hq, ?_, ?_⟩
  · rw [List.length_append]
    omega
  · rw [List.map_append, waitingAt_append _ (by simpa using hle),
      waitingAt_append _ (by simp), Nat.add_zero, hwait]

theorem map_role_withOffset (new : Int) (hk : (code.map Instr.role)[k]? = some .jump) :
    (code.modify k (·.withOffset new)).map Instr.role = code.map Instr.role := by
  apply List.ext_getElem?
  intro p
  rw [List.getElem?_map, List.getElem?_map, List.getElem?_modify]
  by_cases hp : k = p
  · subst hp
    rw [List.getElem?_map] at hk
    obtain ⟨i, hi, hrole⟩ := Option.map_eq_some_iff.1 hk
    have hsame : (i.withOffset new).role = i.role := by
      change i.op.role _ = i.op.role _
      rw [Op.eq_jmp_of_role hrole]
      rfl
    simp [hi, hsame]
  · cases code[p]? <;> simp [hp]

/-- A jump gets another target, where the same parameters wait. -/
theorem withOffset (h : Level code) {q : Nat} {new : Int}
    (hk : (code.map Instr.role)[k]? = some .jump) (hq : (q : Int) = k + 1 + new)
    (hle : q ≤ code.length)
    (hwait : waitingAt (code.map Instr.role) q = waitingAt (code.map Instr.role) k) :
    Level (code.modify k (·.withOffset new)) := by
  intro p i hi hop
  rw [map_role_withOffset new hk, List.length_modify]
  rw [List.getElem?_modify] at hi
  by_cases hp : k = p
  · subst hp
    rw [List.getElem?_map] at hk
    obtain ⟨j, hj, hrole⟩ := Option.map_eq_some_iff.1 hk
    rw [hj] at hi
    obtain rfl : j.withOffset new = i := by simpa using hi
    have hjop := Op.eq_jmp_of_role hrole
    exact ⟨j.first, new, q, by simp [Instr.withOffset, hjop], hq, hle, hwait⟩
  · exact h p i (by simpa [hp] using hi) hop

end Level

/-! ## Code that is added -/

namespace Draft

def roles (d : Draft) : List Role :=
  d.code.map Instr.role

/-- The parameters that wait at the end of the code. -/
def waiting (d : Draft) : List Nat :=
  waitingAfter 0 [] d.roles

@[simp] theorem length_roles (d : Draft) : d.roles.length = d.code.length := by
  simp [roles]

/-- Layouts leave nothing behind. -/
theorem waiting_append {d d' : Draft} {code : Layout} (h : d'.roles = d.roles ++ code.roles) :
    d'.waiting = d.waiting := by
  rw [waiting, h, waitingAfter_append, code.waitingAfter_roles, waiting]

/-- Code of the given roles is added, and all jumps are level if they were. -/
structure Appends (d : Draft) (roles : List Role) (d' : Draft) : Prop where
  roles_eq : d'.roles = d.roles ++ roles
  level : Level d.code → Level d'.code
  loops : d'.loops = d.loops

namespace Appends

variable {d d1 d2 : Draft} {a b : List Role}

theorem of_code (hcode : d1.code = d.code) (hloops : d1.loops = d.loops) : d.Appends [] d1 where
  roles_eq := by rw [roles, hcode, List.append_nil, roles]
  level h := hcode ▸ h
  loops := hloops

theorem refl (d : Draft) : d.Appends [] d :=
  of_code rfl rfl

theorem trans (h : d.Appends a d1) (h' : d1.Appends b d2) : d.Appends (a ++ b) d2 where
  roles_eq := by rw [h'.roles_eq, h.roles_eq, List.append_assoc]
  level hd := h'.level (h.level hd)
  loops := h'.loops.trans h.loops

theorem still (h : d.Appends a d1) (h' : d1.Appends [] d2) : d.Appends a d2 := by
  have hboth := h.trans h'
  rwa [List.append_nil] at hboth

theorem push {i : Instr} (hop : i.op ≠ .jmp) : d.Appends [i.role] (d.push i) where
  roles_eq := by simp [roles]
  level h := by
    rw [code_push]
    exact h.push hop
  loops := rfl

theorem pushAll (seg : List Instr) (hidle : ∀ i ∈ seg, i.role.isIdle = true)
    (hflow : flowing seg = true) : d.Appends (seg.map Instr.role) (d.pushAll seg) where
  roles_eq := by simp [roles]
  level h := by
    rw [code_pushAll]
    exact h.block hidle hflow
  loops := congrArg (·.2.1) d.surroundings_pushAll

theorem retarget (h : d.Appends a d1) {q : Nat} (hk : d1.roles[k]? = some .jump)
    (hle : q ≤ d1.code.length) (hwait : waitingAt d1.roles q = waitingAt d1.roles k) :
    d.Appends a (d1.retarget k q) where
  roles_eq := by
    rw [roles, code_retarget, Level.map_role_withOffset _ hk]
    exact h.roles_eq
  level hd := by
    rw [code_retarget]
    refine (h.level hd).withOffset hk ?_ hle hwait
    unfold Assembly.jumpOffset
    omega
  loops := h.loops

/-- What waits at a place of the code does not depend on the code behind it. -/
theorem waitingAt_eq (h : d.Appends a d1) : waitingAt d1.roles d.code.length = d.waiting := by
  rw [h.roles_eq, ← d.length_roles, waitingAt_length, waiting]

end Appends

/-- A place of the code at which the same parameters wait as at its end. -/
structure Rests (d : Draft) (position : Nat) : Prop where
  le : position ≤ d.code.length
  waiting_eq : waitingAt d.roles position = d.waiting

/-- A jump at such a place. -/
structure Waits (d : Draft) (position : Nat) : Prop extends Rests d position where
  role : d.roles[position]? = some .jump

section Rests

variable {d d1 : Draft} {c : Layout} {k q : Nat}

theorem rests_end (d : Draft) : d.Rests d.code.length :=
  ⟨Nat.le_refl _, (Appends.refl d).waitingAt_eq⟩

theorem Rests.later (h : d.Rests q) (hroles : d1.roles = d.roles ++ c.roles) : d1.Rests q := by
  have hle : q ≤ d.roles.length := by simpa using h.le
  constructor
  · rw [← d1.length_roles, hroles, List.length_append]
    omega
  · rw [hroles, waitingAt_append _ hle, h.waiting_eq, waiting_append hroles]

theorem Waits.later (h : d.Waits k) (hroles : d1.roles = d.roles ++ c.roles) : d1.Waits k := by
  refine ⟨h.toRests.later hroles, ?_⟩
  rw [hroles, List.getElem?_append_left (List.getElem?_eq_some_iff.1 h.role).1, h.role]

theorem Waits.of_roles (h : d.Waits k) (hroles : d1.roles = d.roles) : d1.Waits k :=
  Waits.later (c := .empty) h (hroles.trans (List.append_nil _).symm)

theorem Rests.mono (h : d.Rests q) (hw : d.Appends c.roles d1) : d1.Rests q :=
  h.later hw.roles_eq

theorem Waits.mono (h : d.Waits k) (hw : d.Appends c.roles d1) : d1.Waits k :=
  h.later hw.roles_eq

theorem Waits.still (h : d.Waits k) (hw : d.Appends [] d1) : d1.Waits k :=
  Waits.mono (c := .empty) h hw

theorem rests_pushAll (hidle : ∀ i ∈ seg, i.role.isIdle = true) (hk : k ≤ seg.length) :
    (d.pushAll seg).Rests (d.code.length + k) := by
  have hwait (k : Nat) (hk : k ≤ seg.length) :
      waitingAt (d.pushAll seg).roles (d.code.length + k) =
        waitingAt (d.code.map Instr.role) d.code.length := by
    rw [roles, code_pushAll]
    exact Level.waitingAt_block hidle hk
  refine ⟨by simp [hk], (hwait k hk).trans ?_⟩
  rw [← (rests_end (d.pushAll seg)).waiting_eq, code_pushAll, List.length_append,
    hwait seg.length (Nat.le_refl _)]

/-- A jump is led to a place where the same parameters wait. -/
theorem Appends.patchTo (hk : d.Waits k) (hq : d.Rests q) :
    d.Appends Layout.empty.roles (d.retarget k q) :=
  (Appends.refl d).retarget hk.role hq.le (hq.waiting_eq.trans hk.waiting_eq.symm)

end Rests

end Draft

/-! ## Runs that add code with a layout -/

theorem Pieces.mono {ss ss' : List Stmt} {es es' : List Expr} (hss : ss ⊆ ss') (hes : es ⊆ es') :
    {code : Layout} → Pieces ss es code → Pieces ss' es' code
  | _, .empty => .empty
  | _, .plain => .plain
  | _, .jump => .jump
  | _, .test => .test
  | _, .seq h1 h2 => .seq (h1.mono hss hes) (h2.mono hss hes)
  | _, .stmt hs hcode => .stmt (hss hs) hcode
  | _, .expr he hcode => .expr (hes he) hcode

/-- Lowering adds code made of single instructions and of the code of some expressions. -/
def Lays {α : Type} (t : Target) (x : Lowering α) (es : List Expr) : Prop :=
  ∀ (d : Draft) (a : α) (d' : Draft), Yields t x d a d' →
    ∃ code, Pieces [] es code ∧ d.Appends code.roles d'

/-- Lowering adds single instructions only. -/
class Quiet {α : Type} (x : Lowering α) : Prop where
  safe : Safe x
  lays : ∀ t, Lays t x []

/-- Operations that take no part in calls and go on to the next instruction, or to a position that
a register tells. -/
class Op.Plain (op : Op) : Prop where
  role : ∀ count, op.role count = .plain

class Op.Tests (op : Op) : Prop where
  role : ∀ count, op.role count = .test

namespace Lays

variable {α β : Type} {t : Target} {x : Lowering α} {f : α → Lowering β} {es es' : List Expr}

theorem mono (h : Lays t x es) (hes : es ⊆ es') : Lays t x es' := by
  intro d a d' hy
  obtain ⟨code, hpieces, happends⟩ := h d a d' hy
  exact ⟨code, hpieces.mono (fun _ => id) hes, happends⟩

theorem ofQuiet [h : Quiet x] : Lays t x es :=
  (h.lays t).mono (by simp)

/-- Only the values count that the first part can have. -/
theorem bindOf [Safe x] [∀ a, Safe (f a)] (hx : Lays t x es)
    (hf : ∀ d a d1, Yields t x d a d1 → Lays t (f a) es) : Lays t (x >>= f) es := by
  intro d b d' hy
  obtain ⟨a, d1, hxy, hfy⟩ := yields_bind.1 hy
  obtain ⟨first, hfirst, happends⟩ := hx d a d1 hxy
  obtain ⟨second, hsecond, happends'⟩ := hf d a d1 hxy d1 b d' hfy
  exact ⟨.seq first second, .seq hfirst hsecond, happends.trans happends'⟩

theorem bind [Safe x] [∀ a, Safe (f a)] (hx : Lays t x es) (hf : ∀ a, Lays t (f a) es) :
    Lays t (x >>= f) es :=
  hx.bindOf fun _ a _ _ => hf a

theorem getDraft {f : Draft → Lowering β} (h : ∀ d, Lays t (f d) es) :
    Lays t (getThe Draft >>= f) es :=
  fun d b d' hy => h d d b d' (yields_getDraft_bind.1 hy)

theorem unresolved {what : String} : Lays t (unresolved what) es :=
  fun _ _ _ hy => absurd hy not_yields_unresolved

end Lays

/-! ## Quiet steps -/

namespace Op

variable (indexed constant : Bool) (form : Form) (bank? : Option Bank)

instance plain_ret : Plain .ret := ⟨fun _ => rfl⟩
instance plain_reti : Plain .reti := ⟨fun _ => rfl⟩
instance plain_ijmp : Plain .ijmp := ⟨fun _ => rfl⟩
instance plain_li : Plain .li := ⟨fun _ => rfl⟩
instance plain_load (cell : Load) : Plain (.load cell indexed) := ⟨fun _ => rfl⟩
instance plain_store (cell : Store) : Plain (.store cell indexed) := ⟨fun _ => rfl⟩
instance plain_cast : Plain .cast := ⟨fun _ => rfl⟩
instance plain_result : Plain .result := ⟨fun _ => rfl⟩
instance plain_bound : Plain .bound := ⟨fun _ => rfl⟩
instance plain_shift (op : Shift) : Plain (.shift op form) := ⟨fun _ => rfl⟩
instance plain_commuting (op : Commuting) : Plain (.commuting op constant) :=
  ⟨fun _ => rfl⟩
instance plain_ordered (op : Ordered) : Plain (.ordered op form) := ⟨fun _ => rfl⟩
instance plain_abs : Plain .abs := ⟨fun _ => rfl⟩
instance plain_neg : Plain .neg := ⟨fun _ => rfl⟩
instance plain_not : Plain .not := ⟨fun _ => rfl⟩
instance plain_flop : Plain .flop := ⟨fun _ => rfl⟩
instance plain_atan2 : Plain .atan2 := ⟨fun _ => rfl⟩
instance plain_moveOf : Plain (.moveOf bank?) := ⟨fun _ => rfl⟩
instance plain_loadConstant : Plain (.loadConstant bank?) := ⟨fun _ => rfl⟩

instance plain_arithmeticOp (op : BinOp) (ty : Ty) : Plain (arithmeticOp op ty form) := by
  cases op <;> exact ⟨fun _ => rfl⟩

instance tests_equal (kind : Equality) : Tests (.equal kind constant) :=
  ⟨fun _ => rfl⟩
instance tests_compare (relation : Relation) (comparand : Comparand) :
    Tests (.compare relation comparand form) :=
  ⟨fun _ => rfl⟩
instance tests_test : Tests .test := ⟨fun _ => rfl⟩

theorem Tests.proceeds (op : Op) [h : Tests op] {rest : Nat} (hrest : 0 < rest) :
    op.proceeds rest = true := by
  have hrole := h.role 0
  cases op <;> simp_all [Op.role, Op.proceeds]

theorem Plain.ne_jmp (op : Op) [h : Plain op] : op ≠ .jmp := by
  rintro rfl
  cases h.role 0

end Op

namespace Quiet

variable {α β γ : Type} (value : Int32) (bank? : Option Bank) (p : Place) (op : Op) (a : Operand)
  (reg : Nat) (id : LocalId)

theorem of_code {x : Lowering α} [Safe x]
    (h : ∀ t d a d', Yields t x d a d' → d'.code = d.code ∧ d'.surroundings = d.surroundings) :
    Quiet x := by
  refine ⟨inferInstance, fun t d a d' hy => ?_⟩
  obtain ⟨hcode, hsame⟩ := h t d a d' hy
  exact ⟨.empty, .empty, .of_code hcode (congrArg (·.2.1) hsame)⟩

theorem of_push {x : Lowering α} [Safe x] (op : Op) [hop : op.Plain]
    (h : ∀ t d a d', Yields t x d a d' → ∃ i, i.op = op ∧ d' = d.push i) : Quiet x := by
  refine ⟨inferInstance, fun t d a d' hy => ?_⟩
  obtain ⟨i, rfl, rfl⟩ := h t d a d' hy
  refine ⟨.plain, .plain, ?_⟩
  have happends : d.Appends [i.role] (d.push i) := .push (Op.Plain.ne_jmp i.op)
  rwa [Instr.role, hop.role] at happends

instance pure (a : α) : Quiet (Pure.pure a : Lowering α) :=
  of_code fun t d b d' h => by
    obtain ⟨-, rfl⟩ := yields_pure.1 h
    exact ⟨rfl, rfl⟩

theorem andThen {x : Lowering α} {f : α → Lowering β} (hx : Quiet x) (hf : ∀ a, Quiet (f a)) :
    Quiet (x >>= f) := by
  have hsafe := hx.safe
  have hsafe' (a : α) := (hf a).safe
  exact ⟨inferInstance, fun t => (hx.lays t).bind fun a => (hf a).lays t⟩

instance bind (x : Lowering α) (f : α → Lowering β) [hx : Quiet x] [hf : ∀ a, Quiet (f a)] :
    Quiet (x >>= f) :=
  hx.andThen hf

instance seq (x : Lowering α) (y : Lowering β) [hx : Quiet x] [hy : Quiet y] :
    Quiet (x >>= fun _ => y) :=
  hx.andThen fun _ => hy

instance through (x : Lowering α) (f : α → Lowering β) (g : β → Lowering γ) [hx : Quiet x]
    [hf : ∀ a, Quiet (f a)] [hg : ∀ b, Quiet (g b)] : Quiet (x >>= fun a => f a >>= g) :=
  hx.andThen fun a => (hf a).andThen hg

instance ite (c : Prop) [Decidable c] (x y : Lowering α) [hx : Quiet x] [hy : Quiet y] :
    Quiet (if c then x else y) := by
  split <;> assumption

instance read : Quiet (MonadReader.read : Lowering Target) :=
  of_code fun t d b d' h => by
    cases h.run
    exact ⟨rfl, rfl⟩

/-- Steps of the assembler on anything but the code. -/
instance lift (x : Assembly α) [h : Assembly.Takes Assembler.SameCode x] [Assembly.Safe x] :
    Quiet (liftM x : Lowering α) :=
  of_code fun t d b d' hy => by
    obtain ⟨s, hdoes, rfl⟩ := yields_lift.1 hy
    have hcode := h.runs d.assembler
    rw [hdoes.run] at hcode
    exact ⟨congrArg Array.toList hcode, rfl⟩

instance emit (b c : Operand) [op.Plain] : Quiet (emit op a b c) :=
  of_push op fun _ _ _ _ h => ⟨_, rfl, (yields_emit.1 h).2⟩

instance emitWide (bx : Operand) [op.Plain] : Quiet (emitWide op a bx) :=
  of_push op fun _ _ _ _ h => ⟨_, rfl, (yields_emitWide.1 h).2⟩

instance emitSigned (offset : Int) [op.Plain] : Quiet (emitSigned op a offset) :=
  of_push op fun _ _ _ _ h => ⟨_, rfl, (yields_emitSigned.1 h).2⟩

instance pooledInt : Quiet (pooledInt value) := by
  unfold Lowering.pooledInt
  infer_instance

instance pooledAddress (value : Pooled) : Quiet (pooledAddress value) := by
  unfold Lowering.pooledAddress
  infer_instance

instance constant (c : Constant) : Quiet (constant c) := by
  unfold Lowering.constant
  split
  · split <;> infer_instance
  all_goals infer_instance

instance assign (target source : Place) : Quiet (assign bank? target source) := by
  unfold Lowering.assign
  infer_instance

instance toRegister : Quiet (toRegister p) := by
  unfold Lowering.toRegister
  infer_instance

instance toScratch : Quiet (toScratch p) := by
  unfold Lowering.toScratch
  infer_instance

instance result : Quiet (result bank?) := by
  unfold Lowering.result
  infer_instance

instance loadInt : Quiet (liftM (Assembly.loadInt reg value) : Lowering Unit) := by
  refine ⟨inferInstance, fun t d u d' hy => ⟨.plain, .plain, ?_⟩⟩
  rcases yields_loadInt hy with rfl | rfl
  · exact Draft.Appends.push (i := .asbx .li _ _) (by simp [Instr.op])
  · have hstore : d.Appends [] (d.store (.int value)) := .of_code rfl rfl
    exact hstore.trans (Draft.Appends.push (i := .abx (.lk .int) _ _) (by simp [Instr.op]))

instance modifyHomes (f : Draft → Array (Option Place)) :
    Quiet (modifyThe Draft fun d => { d with homes := f d } : Lowering PUnit) := by
  refine ⟨inferInstance, fun t d u d' hy => ⟨.empty, .empty, ?_⟩⟩
  obtain rfl := yields_modifyHomes.1 hy
  exact .of_code rfl rfl

instance bindHome : Quiet (bindHome id bank? reg) := by
  unfold Lowering.bindHome
  infer_instance

instance releaseHome : Quiet (releaseHome id) := by
  refine ⟨inferInstance, fun t => .getDraft fun d => ?_⟩
  split <;> exact .ofQuiet

instance returnNothing : Quiet returnNothing := by
  unfold Lowering.returnNothing
  infer_instance

instance zeroTest (dest : Place) : Quiet (zeroTest bank? dest) := by
  unfold Lowering.zeroTest
  split <;> infer_instance

end Quiet

theorem Lays.forM {α : Type} {t : Target} {es : List Expr} {l : List α} {f : α → Lowering PUnit}
    (h : ∀ a ∈ l, Safe (f a) ∧ Lays t (f a) es) : Lays t (l.forM f) es := by
  induction l with
  | nil => exact Lays.ofQuiet (x := pure PUnit.unit)
  | cons a rest ih =>
    have hsafe := (h a (by simp)).1
    have hrest : Safe (rest.forM f) := Safe.forM fun b hb => (h b (by simp [hb])).1
    exact (h a (by simp)).2.bind fun _ => ih fun b hb => h b (by simp [hb])

end ActorScript
