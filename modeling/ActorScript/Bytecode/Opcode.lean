import ActorScript.Ty

/-! # Operations of the register machine

An operation is named by what it does and by the form of its operands. Every operation
has a code below 256, its place in `Op.all`, and a mnemonic.
-/

namespace ActorScript

/-- Where the two inputs of an operation come from: registers, or one of them the constant
pool. Shifts take an immediate amount in place of a pooled right input. -/
inductive Form where
  | rr | rk | kr
  deriving DecidableEq, Repr

def Form.code : Form → Nat
  | .rr => 0
  | .rk => 1
  | .kr => 2

/-- Cells of memory as loads see them. -/
inductive Load where
  | byte | half | word | ubyte | uhalf | single | double | string | pointer
  deriving DecidableEq, Repr

namespace Load

def all : List Load :=
  [byte, half, word, ubyte, uhalf, single, double, string, pointer]

def code : Load → Nat
  | byte => 0
  | half => 1
  | word => 2
  | ubyte => 3
  | uhalf => 4
  | single => 5
  | double => 6
  | string => 7
  | pointer => 8

def mnemonic : Load → String
  | byte => "lb"
  | half => "lh"
  | word => "lw"
  | ubyte => "lbu"
  | uhalf => "lhu"
  | single => "lsp"
  | double => "ldp"
  | string => "ls"
  | pointer => "lp"

def ofTy (t : Ty) : Load :=
  match t with
  | .integer .i8 => byte
  | .bool | .integer .u8 => ubyte
  | .integer .i16 => half
  | .integer .u16 => uhalf
  | .floating .f32 => single
  | .floating .f64 => double
  | .string => string
  | _ => if t.isPointer then pointer else word

end Load

/-- Cells of memory as stores see them: signedness no longer matters. -/
inductive Store where
  | byte | half | word | single | double | string | pointer
  deriving DecidableEq, Repr

namespace Store

def all : List Store :=
  [byte, half, word, single, double, string, pointer]

def code : Store → Nat
  | byte => 0
  | half => 1
  | word => 2
  | single => 3
  | double => 4
  | string => 5
  | pointer => 6

def mnemonic : Store → String
  | byte => "sb"
  | half => "sh"
  | word => "sw"
  | single => "ssp"
  | double => "sdp"
  | string => "ss"
  | pointer => "sp"

def ofTy (t : Ty) : Store :=
  match t with
  | .bool | .integer .i8 | .integer .u8 => byte
  | .integer .i16 | .integer .u16 => half
  | .floating .f32 => single
  | .floating .f64 => double
  | .string => string
  | _ => if t.isPointer then pointer else word

end Store

/-- Operations that never take their constant on the left. -/
inductive Commuting where
  | add | mul | and | or | xor | min | max | addf | mulf | minf | maxf | adda
  deriving DecidableEq, Repr

namespace Commuting

def all : List Commuting :=
  [add, mul, and, or, xor, min, max, addf, mulf, minf, maxf, adda]

/-- Code of the form with two registers. -/
def code : Commuting → Nat
  | add => 65
  | mul => 70
  | and => 84
  | or => 86
  | xor => 88
  | min => 90
  | max => 92
  | addf => 111
  | mulf => 116
  | minf => 127
  | maxf => 129
  | adda => 142

def mnemonic : Commuting → String
  | add => "add"
  | mul => "mul"
  | and => "and"
  | or => "or"
  | xor => "xor"
  | min => "min"
  | max => "max"
  | addf => "addf"
  | mulf => "mulf"
  | minf => "minf"
  | maxf => "maxf"
  | adda => "adda"

end Commuting

/-- Operations whose operands cannot be exchanged. -/
inductive Ordered where
  | sub | div | divu | mod | modu | subf | divf | modf | powf
  deriving DecidableEq, Repr

namespace Ordered

def all : List Ordered :=
  [sub, div, divu, mod, modu, subf, divf, modf, powf]

def code : Ordered → Nat
  | sub => 67
  | div => 72
  | divu => 75
  | mod => 78
  | modu => 81
  | subf => 113
  | divf => 118
  | modf => 121
  | powf => 124

def mnemonic : Ordered → String
  | sub => "sub"
  | div => "div"
  | divu => "divu"
  | mod => "mod"
  | modu => "modu"
  | subf => "subf"
  | divf => "divf"
  | modf => "modf"
  | powf => "powf"

end Ordered

/-- Shifts: to the left, to the right filling with zeros, and to the right filling with the sign. -/
inductive Shift where
  | sll | srl | sra
  deriving DecidableEq, Repr

namespace Shift

def all : List Shift := [sll, srl, sra]

def code : Shift → Nat
  | sll => 56
  | srl => 59
  | sra => 62

def mnemonic : Shift → String
  | sll => "sll"
  | srl => "srl"
  | sra => "sra"

end Shift

/-- How a comparison reads its operands. -/
inductive Comparand where
  | signed | unsigned | float
  deriving DecidableEq, Repr

/-- Orders that a comparison can test. The other two are the negations of these. -/
inductive Relation where
  | lt | le
  deriving DecidableEq, Repr

namespace Relation

def all : List Relation := [lt, le]

def code (r : Relation) (comparand : Comparand) : Nat :=
  let least := match comparand with
    | .signed => 99
    | .unsigned => 105
    | .float => 134
  match r with
  | .lt => least
  | .le => least + 3

def mnemonic (r : Relation) (comparand : Comparand) : String :=
  let word := match r with
    | .lt => "lt"
    | .le => "le"
  match comparand with
  | .signed => word
  | .unsigned => word ++ "u"
  | .float => word ++ "f"

end Relation

inductive Equality where
  | word | float | address
  deriving DecidableEq, Repr

namespace Equality

def all : List Equality := [word, float, address]

def code : Equality → Nat
  | word => 97
  | float => 132
  | address => 140

def mnemonic : Equality → String
  | word => "eq"
  | float => "eqf"
  | address => "eqa"

end Equality

inductive Op where
  | nop
  | jmp
  /-- Jump by the value of a register. -/
  | ijmp
  /-- Skip the next instruction unless a register holds the given value. -/
  | test
  | ret
  /-- Return an immediate integer. -/
  | reti
  /-- Load an immediate integer. -/
  | li
  /-- Load a pooled constant. -/
  | lk (bank : Bank)
  | load (cell : Load) (indexed : Bool)
  | store (cell : Store) (indexed : Bool)
  | move (bank : Bank)
  | cast
  | param
  /-- Pass an immediate integer. -/
  | parami
  | call
  | callK
  | tail
  | tailK
  | result
  /-- Check that an index is below a count. -/
  | bound
  | shift (op : Shift) (form : Form)
  | commuting (op : Commuting) (constant : Bool)
  | ordered (op : Ordered) (form : Form)
  | abs
  | neg
  | not
  | equal (kind : Equality) (constant : Bool)
  | compare (relation : Relation) (comparand : Comparand) (form : Form)
  | flop
  | atan2
  /-- A code that names no operation. -/
  | unassigned (code : Nat)
  deriving DecidableEq, Repr

namespace Op

def all : List Op :=
  let forms : List Form := [.rr, .rk, .kr]
  let commuting (op : Commuting) := [Op.commuting op false, Op.commuting op true]
  let ordered (op : Ordered) := forms.map (Op.ordered op)
  let equal (kind : Equality) := [Op.equal kind false, Op.equal kind true]
  let compare (comparand : Comparand) :=
    Relation.all.flatMap fun relation => forms.map (Op.compare relation comparand)
  [nop, jmp, ijmp, test, ret, reti, li] ++ Bank.all.map lk
    ++ Load.all.flatMap (fun cell => [load cell false, load cell true])
    ++ Store.all.flatMap (fun cell => [store cell false, store cell true])
    ++ Bank.all.map move
    ++ [cast, param, parami, call, callK, tail, tailK, result, bound]
    ++ Shift.all.flatMap (fun op => forms.map (shift op))
    ++ commuting .add ++ ordered .sub ++ commuting .mul
    ++ [Ordered.div, .divu, .mod, .modu].flatMap ordered
    ++ [Commuting.and, .or, .xor, .min, .max].flatMap commuting
    ++ [abs, neg, not]
    ++ equal .word ++ compare .signed ++ compare .unsigned
    ++ commuting .addf ++ ordered .subf ++ commuting .mulf
    ++ [Ordered.divf, .modf, .powf].flatMap ordered
    ++ commuting .minf ++ commuting .maxf ++ [flop]
    ++ equal .float ++ compare .float ++ equal .address ++ commuting .adda ++ [atan2]

def code : Op → Nat
  | nop => 0
  | jmp => 1
  | ijmp => 2
  | test => 3
  | ret => 4
  | reti => 5
  | li => 6
  | lk bank => 7 + bank.code
  | load cell indexed => 11 + 2 * cell.code + indexed.toNat
  | store cell indexed => 29 + 2 * cell.code + indexed.toNat
  | move bank => 43 + bank.code
  | cast => 47
  | param => 48
  | parami => 49
  | call => 50
  | callK => 51
  | tail => 52
  | tailK => 53
  | result => 54
  | bound => 55
  | shift op form => op.code + form.code
  | commuting op constant => op.code + constant.toNat
  | ordered op form => op.code + form.code
  | abs => 94
  | neg => 95
  | not => 96
  | equal kind constant => kind.code + constant.toNat
  | compare relation comparand form => relation.code comparand + form.code
  | flop => 131
  | atan2 => 144
  | unassigned code => code

def ofCode (code : Nat) : Op :=
  (all[code]?).getD (unassigned code)

def mnemonic? : Op → Option String
  | nop => some "nop"
  | jmp => some "jmp"
  | ijmp => some "ijmp"
  | test => some "test"
  | ret => some "ret"
  | reti => some "reti"
  | li => some "li"
  | lk .int => some "lk"
  | lk .float => some "lkf"
  | lk .string => some "lks"
  | lk .pointer => some "lkp"
  | load cell indexed => some (cell.mnemonic ++ if indexed then "_r" else "")
  | store cell indexed => some (cell.mnemonic ++ if indexed then "_r" else "")
  | move .int => some "move"
  | move .float => some "movef"
  | move .string => some "moves"
  | move .pointer => some "movea"
  | cast => some "cast"
  | param => some "param"
  | parami => some "parami"
  | call => some "call"
  | callK => some "call_k"
  | tail => some "tail"
  | tailK => some "tail_k"
  | result => some "result"
  | bound => some "bound"
  | shift op form => some (op.mnemonic ++ match form with
      | .rr => "_rr"
      | .rk => "_ri"
      | .kr => "_kr")
  | commuting op constant => some (op.mnemonic ++ if constant then "_rk" else "_rr")
  | ordered op form => some (op.mnemonic ++ suffix form)
  | abs => some "abs"
  | neg => some "neg"
  | not => some "not"
  | equal kind constant => some (kind.mnemonic ++ if constant then "_k" else "_r")
  | compare relation comparand form => some (relation.mnemonic comparand ++ suffix form)
  | flop => some "flop"
  | atan2 => some "atan2"
  | unassigned _ => none
where
  suffix : Form → String
    | .rr => "_rr"
    | .rk => "_rk"
    | .kr => "_kr"

/-- The move between registers of a bank; values without a bank count as integers. -/
def moveOf (bank? : Option Bank) : Op :=
  move (bank?.getD .int)

/-- The load of a pooled constant; values without a bank count as integers. -/
def loadConstant (bank? : Option Bank) : Op :=
  lk (bank?.getD .int)

end Op

/-- What the `cast` operation converts between. -/
inductive Conversion where
  | intToFloat | uintToFloat | floatToInt | floatToUInt
  | stringToName | nameToString | soundToString | stringToSound | stringToColor
  deriving DecidableEq, Repr

def Conversion.code : Conversion → Nat
  | .intToFloat => 1
  | .uintToFloat => 2
  | .floatToInt => 3
  | .floatToUInt => 4
  | .stringToName => 5
  | .nameToString => 6
  | .soundToString => 7
  | .stringToSound => 8
  | .stringToColor => 9

/-- Selectors of the `flop` operation beyond the library functions. -/
def absSelector : Nat := 16

def negSelector : Nat := 17

/-- Marks a `ret` as the one that ends the function. -/
def finalReturn : Nat := 0x80

/-- Asks a float comparison to accept nearly equal values. -/
def approximately : Nat := 2

end ActorScript
