/-! # Constant pools

A pool holds constants in the order in which they came, and a table of their positions by value,
which is asked in place of the pool. Positions are kept in sixteen bits.
-/

namespace ActorScript

/-- The row of a table that a value is kept in. -/
class Rowed (α : Type) where
  row : α → Fin 256

instance : Rowed Int32 := ⟨fun value => Fin.ofNat 256 value.toUInt32.toNat⟩

instance : Rowed UInt64 := ⟨fun value => Fin.ofNat 256 (value >>> 48).toNat⟩

instance : Rowed String := ⟨fun value => Fin.ofNat 256 value.length⟩

structure PositionTable (α : Type) where
  rows : Vector (List (α × Nat)) 256 := .replicate 256 []

namespace PositionTable

variable {α : Type} [DecidableEq α] [Rowed α]

@[inline]
def find? (table : PositionTable α) (value : α) : Option Nat :=
  table.rows[Rowed.row value].lookup value

@[inline]
def insert (table : PositionTable α) (value : α) (position : Nat) : PositionTable α :=
  let row := Rowed.row value
  { rows := table.rows.set row ((value, position) :: table.rows[row]) }

theorem find?_empty (value : α) : ({} : PositionTable α).find? value = none := by
  simp [find?]

theorem find?_insert (table : PositionTable α) (value other : α) (position : Nat) :
    (table.insert value position).find? other =
      if other = value then some position else table.find? other := by
  by_cases h : other = value
  · simp [find?, insert, h]
  · by_cases hrow : Rowed.row value = Rowed.row other
    · simp [find?, insert, hrow, List.lookup_cons, beq_eq_false_iff_ne.2 h, h]
    · have hne : (Rowed.row value).val ≠ (Rowed.row other).val := fun heq => hrow (Fin.ext heq)
      simp [find?, insert, h, Vector.getElem_set_ne, hne]

end PositionTable

/-- Constants of one kind. The table tells where each of them came first. -/
structure ConstantPool (α : Type) [DecidableEq α] [Rowed α] where
  entries : Array α
  table : PositionTable α
  mirrors : ∀ value, table.find? value = (entries.findIdx? (· == value)).map (· % 65536)

namespace ConstantPool

variable {α : Type} [DecidableEq α] [Rowed α]

def empty : ConstantPool α where
  entries := #[]
  table := {}
  mirrors value := by simp [PositionTable.find?_empty]

/-- A table still mirrors the entries behind which a new one is put. -/
theorem mirrors_push (pool : ConstantPool α) {value : α} (new : pool.table.find? value = none)
    (other : α) : (pool.table.insert value (pool.entries.size % 65536)).find? other =
      ((pool.entries.push value).findIdx? (· == other)).map (· % 65536) := by
  rw [PositionTable.find?_insert, Array.findIdx?_push]
  by_cases h : other = value
  · subst h
    rw [pool.mirrors, Option.map_eq_none_iff] at new
    simp [new]
  · simp [h, Ne.symm h, pool.mirrors]

/-- Position of a value, which is added if it is new. -/
@[inline]
def intern (pool : ConstantPool α) (value : α) : Nat × ConstantPool α :=
  match new : pool.table.find? value with
  | some position => (position, pool)
  | none =>
      let position := pool.entries.size % 65536
      (position, ⟨pool.entries.push value, pool.table.insert value position, pool.mirrors_push new⟩)

end ConstantPool

end ActorScript
