import ActorScript.Bytecode.Assembler
import ActorScript.Bytecode.Place

/-! # What instructions expect of their operands

Every field of an instruction is read in one way only: as a register of a bank, as an index
into the constant pool of a bank, or as a number by itself. Which one it is follows from the
operation, and for a few operations from another field. The first register that an instruction
names is the one that it writes, if it writes any.
-/

namespace ActorScript

/-- How a field of an instruction is read. -/
inductive Slot where
  | register (bank : Bank)
  | constant (bank : Bank)
  | immediate
  deriving DecidableEq, Repr

namespace Slot

def accepts : Slot → Operand → Bool
  | register bank, .reg bank? _ => bank? == some bank
  | constant bank, .pool bank? _ => bank? == some bank
  | immediate, .imm _ => true
  | _, _ => false

def value (bank : Bank) (isConstant : Bool) : Slot :=
  if isConstant then constant bank else register bank

/-- The field that a tag of a parameter or a returned value speaks about. -/
def tagged (tag : Nat) : Slot :=
  match tag with
  | 0 => register .int
  | 1 => register .float
  | 2 => register .string
  | 3 => register .pointer
  | 4 => constant .int
  | 5 => constant .float
  | 6 => constant .string
  | 7 => constant .pointer
  | _ => immediate

def inputs (bank : Bank) : Form → Slot × Slot
  | .rr => (register bank, register bank)
  | .rk => (register bank, constant bank)
  | .kr => (constant bank, register bank)

section Accepts

variable {bank : Bank} {bank? : Option Bank} {n : Nat}

@[simp] theorem register_accepts_reg : (register bank).accepts (.reg bank? n) = (bank? == some bank) := rfl
@[simp] theorem register_accepts_pool : (register bank).accepts (.pool bank? n) = false := rfl
@[simp] theorem constant_accepts_reg : (constant bank).accepts (.reg bank? n) = false := rfl
@[simp] theorem constant_accepts_pool : (constant bank).accepts (.pool bank? n) = (bank? == some bank) := rfl
@[simp] theorem immediate_accepts_imm : immediate.accepts (.imm n) = true := rfl
@[simp] theorem value_true : value bank true = constant bank := rfl
@[simp] theorem value_false : value bank false = register bank := rfl

end Accepts

end Slot

/-! ## Banks that operations work on -/

def Load.bank : Load → Bank
  | byte | half | word | ubyte | uhalf => .int
  | single | double => .float
  | string => .string
  | pointer => .pointer

def Store.bank : Store → Bank
  | byte | half | word => .int
  | single | double => .float
  | string => .string
  | pointer => .pointer

def Commuting.bank : Commuting → Bank
  | add | mul | and | or | xor | min | max => .int
  | addf | mulf | minf | maxf => .float
  | adda => .pointer

/-- Bank of the second input: addresses are moved by integers. -/
def Commuting.secondBank : Commuting → Bank
  | adda => .int
  | op => op.bank

def Ordered.bank : Ordered → Bank
  | sub | div | divu | mod | modu => .int
  | subf | divf | modf | powf => .float

def Comparand.bank : Comparand → Bank
  | signed | unsigned => .int
  | float => .float

def Equality.bank : Equality → Bank
  | word => .int
  | float => .float
  | address => .pointer

/-- Banks of the result and of the source of a conversion, by its code. -/
def Conversion.banks? : Nat → Option (Bank × Bank)
  | 1 | 2 => some (.float, .int)
  | 3 | 4 => some (.int, .float)
  | 5 | 8 | 9 => some (.int, .string)
  | 6 | 7 => some (.string, .int)
  | _ => none

section

variable {bank? : Option Bank} {n : Nat}

@[simp] theorem Operand.value_reg : value (.reg bank? n) = n := rfl
@[simp] theorem Operand.value_pool : value (.pool bank? n) = n := rfl
@[simp] theorem Operand.value_imm : value (.imm n) = n := rfl

end

namespace Instr

def fitsThree (slots : Slot × Slot × Slot) (a b c : Operand) : Bool :=
  slots.1.accepts a && slots.2.1.accepts b && slots.2.2.accepts c

/-- Whether every operand is of the kind and bank that the operation reads in its field. No
operand fits an operation that stands in the wrong layout. -/
def fits : Instr → Bool
  | .abc op a b c =>
      match op with
      | .nop => fitsThree (.immediate, .immediate, .immediate) a b c
      | .test => fitsThree (.register .int, .immediate, .immediate) a b c
      | .ret => fitsThree (.immediate, .immediate, .tagged b.value) a b c
      | .load cell indexed =>
          fitsThree (.register cell.bank, .register .pointer, .value .int !indexed) a b c
      | .store cell indexed =>
          fitsThree (.register .pointer, .register cell.bank, .value .int !indexed) a b c
      | .move bank => fitsThree (.register bank, .register bank, .immediate) a b c
      | .cast =>
          match Conversion.banks? c.value with
          | some (target, source) => fitsThree (.register target, .register source, .immediate) a b c
          | none => false
      | .call | .tail => fitsThree (.register .pointer, .immediate, .immediate) a b c
      | .callK | .tailK => fitsThree (.constant .pointer, .immediate, .immediate) a b c
      | .shift _ .rk => fitsThree (.register .int, .register .int, .immediate) a b c
      | .shift _ form => fitsThree (.register .int, Slot.inputs .int form) a b c
      | .commuting op constant =>
          fitsThree (.register op.bank, .register op.bank, .value op.secondBank constant) a b c
      | .ordered op form => fitsThree (.register op.bank, Slot.inputs op.bank form) a b c
      | .abs | .neg | .not => fitsThree (.register .int, .register .int, .immediate) a b c
      | .equal kind constant =>
          fitsThree (.immediate, .register kind.bank, .value kind.bank constant) a b c
      | .compare _ comparand form =>
          fitsThree (.immediate, Slot.inputs comparand.bank form) a b c
      | .flop => fitsThree (.register .float, .register .float, .immediate) a b c
      | .atan2 => fitsThree (.register .float, .register .float, .register .float) a b c
      | _ => false
  | .abx op a bx =>
      match op with
      | .ijmp => Slot.accepts (.register .int) a && Slot.accepts .immediate bx
      | .lk bank => Slot.accepts (.register bank) a && Slot.accepts (.constant bank) bx
      | .param => Slot.accepts .immediate a && Slot.accepts (.tagged a.value) bx
      | .result => Slot.accepts .immediate a && Slot.accepts (.tagged a.value) bx
      | .bound => Slot.accepts (.register .int) a && Slot.accepts .immediate bx
      | _ => false
  | .asbx op a _ =>
      match op with
      | .jmp | .reti | .parami => Slot.accepts .immediate a
      | .li => Slot.accepts (.register .int) a
      | _ => false

def target? : Instr → Option (Bank × Nat)
  | .abc op a _ c =>
      match op with
      | .load cell _ => some (cell.bank, a.value)
      | .move bank => some (bank, a.value)
      | .cast => (Conversion.banks? c.value).map fun banks => (banks.1, a.value)
      | .shift _ _ | .abs | .neg | .not => some (.int, a.value)
      | .commuting op _ => some (op.bank, a.value)
      | .ordered op _ => some (op.bank, a.value)
      | .flop | .atan2 => some (.float, a.value)
      | _ => none
  | .abx op a bx =>
      match op with
      | .lk bank => some (bank, a.value)
      | .result =>
          match Slot.tagged a.value with
          | .register bank => some (bank, bx.value)
          | _ => none
      | _ => none
  | .asbx op a _ =>
      match op with
      | .li => some (.int, a.value)
      | _ => none

section

variable {bank? : Option Bank} {n : Nat} {k : Int}

@[simp] theorem target?_compare {r : Relation} {o : Comparand} {f : Form} {a b c : Operand} :
    target? (.abc (.compare r o f) a b c) = none := rfl
@[simp] theorem target?_equal {o : Equality} {f : Bool} {a b c : Operand} :
    target? (.abc (.equal o f) a b c) = none := rfl
@[simp] theorem target?_jmp {a : Operand} : target? (.asbx .jmp a k) = none := by
  simp only [target?]
@[simp] theorem fits_jmp : fits (.asbx .jmp (.imm n) k) = true := by
  simp only [fits, Slot.immediate_accepts_imm]
@[simp] theorem target?_li : target? (.asbx .li (.reg bank? n) k) = some (.int, n) := rfl
@[simp] theorem fits_li : fits (.asbx .li (.reg (some .int) n) k) = true := rfl

end

def operands : Instr → List Operand
  | .abc _ a b c => [a, b, c]
  | .abx _ a bx => [a, bx]
  | .asbx _ a _ => [a]

end Instr

end ActorScript
