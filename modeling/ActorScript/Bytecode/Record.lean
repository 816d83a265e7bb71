import ActorScript.Bytecode.Chunk
import ActorScript.Json.Basic

/-! # Chunks as JSON
-/

namespace ActorScript

def Pooled.toJson (p : Pooled) : Json :=
  let tagged (kind : String) (members : List (String × Json)) :=
    Json.sorted (("kind", .str kind) :: members)
  match p with
  | null => tagged "null" []
  | state id label => tagged "state" [("id", .ofNat id), ("label", .str label)]
  | cls name => tagged "class" [("name", .str name)]
  | native service => tagged "native" [("function", .str service.word)]
  | function name => tagged "function" [("name", .str name)]
  | generator name => tagged "rng" [("name", .str name)]

def Chunk.toJson (chunk : Chunk) : Json :=
  .sorted
    [("name", .str chunk.name),
      ("code", .arr (chunk.code.toList.map fun w => .ofNat w.toNat)),
      ("int_consts", .arr (chunk.ints.toList.map fun v => .ofInt v.toInt)),
      ("float_consts", .arr (chunk.floats.toList.map fun v => .ofFloat (.ofBits v))),
      ("string_consts", .arr (chunk.strings.toList.map .str)),
      ("addr_consts", .arr (chunk.addresses.toList.map Pooled.toJson)),
      ("names", .arr (chunk.names.toList.map .str)),
      ("num_regs", .arr (chunk.registers.toList.map .ofNat)),
      ("returns", .arr (chunk.returns.map .str))]

end ActorScript
