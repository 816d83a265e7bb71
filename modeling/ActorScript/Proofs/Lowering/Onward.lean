import ActorScript.Proofs.ConstantPools

/-! # Steps of the assembler that lead onward

The code of an expression is written from its start to its end. Instructions are added behind those
that are there, and a jump that is filled in leads to a later position, so no way through the code
goes back.
-/

namespace ActorScript

def Instr.Ahead (i : Instr) : Prop :=
  ∀ a offset, i = .asbx .jmp a offset → 0 ≤ offset

/-- From a position on, no jump leads backwards. -/
def Assembler.AheadFrom (s : Assembler) (n : Nat) : Prop :=
  ∀ p i, n ≤ p → s.code[p]? = some i → i.Ahead

/-- Code was only added, and where no jump led backwards none does. -/
structure Assembler.Onward (s s' : Assembler) : Prop where
  grows : s.code.size ≤ s'.code.size
  ahead : ∀ n, s.AheadFrom n → s'.AheadFrom n

namespace Assembler.Onward

variable {s s' s'' : Assembler}

theorem of_code (h : s'.code = s.code) : s.Onward s' :=
  ⟨by rw [h], fun n hn p i hp hi => hn p i hp (by rwa [h] at hi)⟩

theorem trans (h : s.Onward s') (h' : s'.Onward s'') : s.Onward s'' :=
  ⟨h.grows.trans h'.grows, fun n hn => h'.ahead n (h.ahead n hn)⟩

theorem push {i : Instr} (h : i.Ahead) : s.Onward { s with code := s.code.push i } := by
  refine ⟨by simp, fun n hn p j hp hj => ?_⟩
  rw [Array.getElem?_push] at hj
  split at hj
  · cases hj
    exact h
  · exact hn p j hp hj

theorem retarget {source target : Nat} (h : source < s.code.size → source < target) :
    s.Onward { s with
      code := s.code.modify source (·.withOffset (Assembly.jumpOffset source target)) } := by
  refine ⟨by simp, fun n hn p j hp hj => ?_⟩
  rw [Array.getElem?_modify] at hj
  split at hj
  next heq =>
    subst heq
    obtain ⟨i, hi, rfl⟩ := Option.map_eq_some_iff.1 hj
    have hlt := h (Array.getElem?_eq_some_iff.1 hi).1
    intro a offset heq
    have hoffset : Assembly.jumpOffset source target = offset := (Instr.asbx.inj heq).2.2
    simp only [Assembly.jumpOffset] at hoffset
    omega
  next => exact hn p j hp hj

end Assembler.Onward

instance : Assembler.Tracks Assembler.Onward :=
  ⟨fun _ => .of_code rfl, .trans, fun h => .of_code h.code⟩

/-- A step that leads onward from every state. -/
abbrev Assembly.Onward {α : Type} (x : Assembly α) : Prop :=
  Takes Assembler.Onward x

namespace Assembly.Onward

theorem append {i : Instr} (h : i.Ahead) : Onward (Assembly.append i) :=
  ⟨fun _ => .push h⟩

instance append_abc (op : Op) (a b c : Operand) : Onward (Assembly.append (.abc op a b c)) :=
  append (by simp [Instr.Ahead])

instance append_abx (op : Op) (a bx : Operand) : Onward (Assembly.append (.abx op a bx)) :=
  append (by simp [Instr.Ahead])

theorem asbx {op : Op} {a : Operand} {offset : Int} (h : op = .jmp → 0 ≤ offset) :
    Onward (Assembly.asbx op a offset) := by
  have : Onward (Assembly.append (.asbx op a offset)) := by
    refine append ?_
    rintro _ _ ⟨⟩
    exact h rfl
  infer_instance

instance jumpForward : Onward Assembly.jumpForward :=
  asbx fun _ => le_rfl

theorem patchTo {source target : Nat} {s : Assembler}
    (h : source < s.code.size → source < target) :
    s.Onward ((Assembly.patchTo source target).run s).2 := by
  have hcode : ((Assembly.checkJump source target).run s).2.code = s.code :=
    (Takes.checkJump (R := Assembler.SameCode) source target).runs s
  exact Assembler.Onward.trans ((Takes.checkJump source target).runs s)
    (.retarget (by rwa [hcode]))

instance patch (source : Nat) : Onward (Assembly.patch source) :=
  ⟨fun _ => patchTo id⟩

end Assembly.Onward

end ActorScript
