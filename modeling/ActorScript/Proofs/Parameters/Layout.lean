import ActorScript.Proofs.Locals
import ActorScript.Proofs.Lowering.Flow

/-! # Parameters and calls in code

Instructions pass parameters one by one, and a call takes as many as it says of those passed last.
A layout tells how code is made: which instructions pass the values of which call, and which
stretches are statements. Read from the start to the end, code with a layout gives every call
exactly the parameters that were passed for it, and leaves nothing behind.
-/

namespace ActorScript

/-! ## Parameters that wait -/

/-- What an instruction means for the parameters that wait for a call, and for what runs next. -/
inductive Role where
  | plain
  /-- May skip the instruction behind it. -/
  | test
  | jump
  | pass
  | call (count : Nat)
  deriving DecidableEq, Repr

def Op.role (count : Nat) : Op → Role
  | .test | .equal _ _ | .compare _ _ _ => .test
  | .jmp => .jump
  | .param | .parami => .pass
  | .callK | .tailK => .call count
  | _ => .plain

/-- The number of parameters of a call is its second operand. -/
def Instr.role (i : Instr) : Role :=
  i.op.role (i.low / 256)

/-- The parameters that wait behind an instruction at a position, the last one passed last. They
are known by the positions of the instructions that pass them. -/
def Role.after (position : Nat) (waiting : List Nat) : Role → List Nat
  | .pass => waiting ++ [position]
  | .call count => waiting.take (waiting.length - count)
  | .plain | .test | .jump => waiting

def Role.isIdle : Role → Bool
  | .plain | .test | .jump => true
  | .pass | .call _ => false

theorem Role.after_of_isIdle {r : Role} (h : r.isIdle = true) (position : Nat)
    (waiting : List Nat) : r.after position waiting = waiting := by
  cases r <;> simp_all [isIdle, after]

@[simp]
def waitingAfter (position : Nat) (waiting : List Nat) : List Role → List Nat
  | [] => waiting
  | r :: rest => waitingAfter (position + 1) (r.after position waiting) rest

theorem waitingAfter_append (a b : List Role) (position : Nat) (waiting : List Nat) :
    waitingAfter position waiting (a ++ b) =
      waitingAfter (position + a.length) (waitingAfter position waiting a) b := by
  induction a generalizing position waiting with
  | nil => rfl
  | cons r rest ih =>
    rw [List.cons_append, waitingAfter, ih, waitingAfter, List.length_cons]
    congr 1
    omega

/-- The parameters that wait at a position of code that is read from its start. -/
def waitingAt (roles : List Role) (position : Nat) : List Nat :=
  waitingAfter 0 [] (roles.take position)

theorem waitingAt_append {roles : List Role} (rest : List Role) {position : Nat}
    (h : position ≤ roles.length) :
    waitingAt (roles ++ rest) position = waitingAt roles position := by
  rw [waitingAt, List.take_append_of_le_length h, waitingAt]

theorem waitingAt_length (roles rest : List Role) :
    waitingAt (roles ++ rest) roles.length = waitingAfter 0 [] roles := by
  rw [waitingAt, List.take_left]

theorem waitingAt_succ {roles : List Role} {position : Nat} {r : Role}
    (h : roles[position]? = some r) :
    waitingAt roles (position + 1) = r.after position (waitingAt roles position) := by
  have hlt := (List.getElem?_eq_some_iff.1 h).1
  rw [waitingAt, List.take_add_one, h, waitingAfter_append,
    List.length_take_of_le (Nat.le_of_lt hlt)]
  simp [waitingAt]

/-! ## Layouts -/

mutual

/-- How a stretch of code is made. -/
inductive Layout where
  | empty
  | plain
  | jump
  /-- A test and the jump behind it, which it may skip. -/
  | test
  | seq (first second : Layout)
  /-- The call that a node makes, behind what is passed to it. -/
  | call (node : Expr) (passes : Params)
  | stmt (code : Layout)

/-- Values that are passed in order, each one by an instruction behind the code that computes it. -/
inductive Params where
  | nil
  | cons (value : Layout) (rest : Params)

end

namespace Params

@[simp]
def count : Params → Nat
  | .nil => 0
  | .cons _ rest => rest.count + 1

end Params

mutual

@[simp]
def Layout.roles : Layout → List Role
  | .empty => []
  | .plain => [.plain]
  | .jump => [.jump]
  | .test => [.test, .jump]
  | .seq first second => first.roles ++ second.roles
  | .call _ passes => passes.roles ++ [.call passes.count]
  | .stmt code => code.roles

@[simp]
def Params.roles : Params → List Role
  | .nil => []
  | .cons value rest => value.roles ++ .pass :: rest.roles

end

/-- Where the instructions stand that pass the values, if the code starts at a position. -/
@[simp]
def Params.positions (start : Nat) : Params → List Nat
  | .nil => []
  | .cons value rest =>
      (start + value.roles.length) :: rest.positions (start + value.roles.length + 1)

/-- A call in the code: the node that makes it, its position, and the positions of the
instructions that pass its parameters. -/
structure Site where
  node : Expr
  position : Nat
  params : List Nat

mutual

@[simp]
def Layout.sites (start : Nat) : Layout → List Site
  | .seq first second => first.sites start ++ second.sites (start + first.roles.length)
  | .call node passes =>
      passes.sites start ++ [⟨node, start + passes.roles.length, passes.positions start⟩]
  | .stmt code => code.sites start
  | .empty | .plain | .jump | .test => []

@[simp]
def Params.sites (start : Nat) : Params → List Site
  | .nil => []
  | .cons value rest => value.sites start ++ rest.sites (start + value.roles.length + 1)

end

/-- Where statements begin and end in code that starts at a position. Nothing that is passed to a
call has statements in it. -/
@[simp]
def Layout.boundaries (start : Nat) : Layout → List Nat
  | .seq first second => first.boundaries start ++ second.boundaries (start + first.roles.length)
  | .stmt code => start :: (start + code.roles.length) :: code.boundaries start
  | .empty | .plain | .jump | .test | .call _ _ => []

/-! ## Layouts of trees -/

/-- What a function of a kind is passed before its arguments: the object, and then the caller.
Where nothing has to be computed there is no expression. -/
def FunctionKind.leading (object : Option Expr) : FunctionKind → List (Option Expr)
  | .static => []
  | .method => [object]
  | .action => [object, none, none]

/-- What is passed to the call that a node makes, in order. -/
def Expr.parameters? : Expr → Option (List (Option Expr))
  | .invoke _ object function args _ => some (function.kind.leading object ++ args.map some)
  | .special _ _ args _ => some (none :: none :: args.map some)
  | .random _ _ _ low high _ => some [none, some low, some high]
  | .random2 _ _ mask _ => some [none, some mask]
  | .randomPick _ _ _ _ => some [none, none, none]
  | .classCast _ operand _ => some [some operand, none]
  | .runtimeState _ index _ => some [none, none, some index]
  | .stateLabel _ _ names _ => some (none :: names.map fun _ => none)
  | _ => none

/-- The expressions among which the result of the call of a node chooses. -/
def Expr.chosen : Expr → List Expr
  | .randomPick _ _ _ choices => choices
  | _ => []

mutual

/-- Code made of single instructions and of the code of some statements and expressions. -/
inductive Pieces : List Stmt → List Expr → Layout → Prop
  | empty {ss : List Stmt} {es : List Expr} : Pieces ss es .empty
  | plain {ss : List Stmt} {es : List Expr} : Pieces ss es .plain
  | jump {ss : List Stmt} {es : List Expr} : Pieces ss es .jump
  | test {ss : List Stmt} {es : List Expr} : Pieces ss es .test
  | seq {ss : List Stmt} {es : List Expr} {first second : Layout} :
      Pieces ss es first → Pieces ss es second → Pieces ss es (.seq first second)
  | stmt {ss : List Stmt} {es : List Expr} {s : Stmt} {code : Layout} :
      s ∈ ss → Pieces s.children s.exprs code → Pieces ss es (.stmt code)
  | expr {ss : List Stmt} {es : List Expr} {e : Expr} {code : Layout} :
      e ∈ es → Laid e code → Pieces ss es code

/-- The code of an expression. A node that makes a call passes its parameters first. -/
inductive Laid : Expr → Layout → Prop
  | node {e : Expr} {code : Layout} :
      e.parameters? = none → Pieces [] e.children code → Laid e code
  | call {e : Expr} {values : List (Option Expr)} {passes : Params} {rest : Layout} :
      e.parameters? = some values → Passed values passes → Pieces [] e.chosen rest →
      Laid e (.seq (.call e passes) rest)

inductive Passed : List (Option Expr) → Params → Prop
  | nil : Passed [] .nil
  | leading {values : List (Option Expr)} {passes : Params} :
      Passed values passes → Passed (none :: values) (.cons .empty passes)
  | value {e : Expr} {code : Layout} {values : List (Option Expr)} {passes : Params} :
      Laid e code → Passed values passes → Passed (some e :: values) (.cons code passes)

end

/-! ## Reading code with a layout -/

@[simp]
theorem Params.length_positions : (passes : Params) → (start : Nat) →
    (passes.positions start).length = passes.count
  | .nil, _ => rfl
  | .cons value rest, start => by simp [rest.length_positions]

mutual

/-- Code with a layout leaves the parameters that wait as they were. -/
theorem Layout.waitingAfter_roles : (code : Layout) → (start : Nat) → (waiting : List Nat) →
    waitingAfter start waiting code.roles = waiting
  | .empty, _, _ | .plain, _, _ | .jump, _, _ | .test, _, _ => rfl
  | .seq first second, start, waiting => by
    rw [Layout.roles, waitingAfter_append, first.waitingAfter_roles, second.waitingAfter_roles]
  | .call node passes, start, waiting => by
    rw [Layout.roles, waitingAfter_append, passes.waitingAfter_roles]
    simp [Role.after]
  | .stmt code, start, waiting => code.waitingAfter_roles start waiting

/-- Code that passes values adds them to the parameters that wait. -/
theorem Params.waitingAfter_roles : (passes : Params) → (start : Nat) → (waiting : List Nat) →
    waitingAfter start waiting passes.roles = waiting ++ passes.positions start
  | .nil, _, waiting => (List.append_nil waiting).symm
  | .cons value rest, start, waiting => by
    rw [Params.roles, waitingAfter_append, value.waitingAfter_roles, waitingAfter,
      rest.waitingAfter_roles, Params.positions]
    simp [Role.after]

end

/-- A place in code that starts at a position has a role. -/
def HasRole (start : Nat) (roles : List Role) (position : Nat) (r : Role) : Prop :=
  ∃ k, position = start + k ∧ roles[k]? = some r

section HasRole

variable {start position : Nat} {a b : List Role} {r : Role}

theorem HasRole.left (h : HasRole start a position r) (b : List Role) :
    HasRole start (a ++ b) position r := by
  obtain ⟨k, rfl, hk⟩ := h
  refine ⟨k, rfl, ?_⟩
  rw [List.getElem?_append_left (List.getElem?_eq_some_iff.1 hk).1, hk]

theorem HasRole.right (h : HasRole (start + a.length) b position r) :
    HasRole start (a ++ b) position r := by
  obtain ⟨k, rfl, hk⟩ := h
  refine ⟨a.length + k, by omega, ?_⟩
  rw [List.getElem?_append_right (by omega), Nat.add_sub_cancel_left, hk]

theorem hasRole_append :
    HasRole start (a ++ b) position r ↔
      HasRole start a position r ∨ HasRole (start + a.length) b position r := by
  constructor
  · rintro ⟨k, rfl, hk⟩
    by_cases hlt : k < a.length
    · rw [List.getElem?_append_left hlt] at hk
      exact .inl ⟨k, rfl, hk⟩
    · rw [List.getElem?_append_right (by omega)] at hk
      exact .inr ⟨k - a.length, by omega, hk⟩
  · rintro (h | h)
    · exact h.left b
    · exact h.right

theorem hasRole_singleton {r' : Role} :
    HasRole start [r'] position r ↔ position = start ∧ r' = r := by
  constructor
  · rintro ⟨k, rfl, hk⟩
    obtain ⟨hlt, rfl⟩ := List.getElem?_eq_some_iff.1 hk
    obtain rfl : k = 0 := by simpa using hlt
    exact ⟨rfl, rfl⟩
  · rintro ⟨rfl, rfl⟩
    exact ⟨0, rfl, rfl⟩

end HasRole

/-- A call finds the parameters that are passed for it behind all others that wait. -/
structure Site.Fed (site : Site) (start : Nat) (waiting : List Nat) (roles : List Role) : Prop where
  reach : ∃ outer before after, roles = before ++ .call site.params.length :: after ∧
    site.position = start + before.length ∧
    waitingAfter start waiting before = waiting ++ (outer ++ site.params)
  passed : ∀ position ∈ site.params, HasRole start roles position .pass

namespace Site.Fed

variable {site : Site} {start : Nat} {waiting : List Nat} {a b : List Role}

theorem left (h : site.Fed start waiting a) (b : List Role) : site.Fed start waiting (a ++ b) := by
  obtain ⟨outer, before, after, ha, hpos, hwait⟩ := h.reach
  exact {
    reach := ⟨outer, before, after ++ b, by simp [ha], hpos, hwait⟩
    passed := fun position hp => (h.passed position hp).left b }

theorem right {more : List Nat} (ha : waitingAfter start waiting a = waiting ++ more)
    (h : site.Fed (start + a.length) (waiting ++ more) b) : site.Fed start waiting (a ++ b) := by
  obtain ⟨outer, before, after, hb, hpos, hwait⟩ := h.reach
  refine ⟨⟨more ++ outer, a ++ before, after, by simp [hb], ?_, ?_⟩, fun position hp =>
    (h.passed position hp).right⟩
  · rw [hpos, List.length_append]
    omega
  · rw [waitingAfter_append, ha, hwait]
    simp

end Site.Fed

theorem Params.hasRole_of_mem : (passes : Params) → (start : Nat) →
    ∀ position ∈ passes.positions start, HasRole start passes.roles position .pass
  | .nil, _, _, h => by simp at h
  | .cons value rest, start, position, h => by
    rw [roles, ← List.singleton_append]
    rcases List.mem_cons.1 h with rfl | h
    · exact ((hasRole_singleton.2 ⟨rfl, rfl⟩).left _).right
    · exact HasRole.right (rest.hasRole_of_mem _ position (by simpa using h)).right

mutual

/-- Every call of a layout finds its parameters. -/
theorem Layout.fed : (code : Layout) → (start : Nat) → (waiting : List Nat) →
    ∀ site ∈ code.sites start, site.Fed start waiting code.roles
  | .empty, _, _, _, h | .plain, _, _, _, h | .jump, _, _, _, h | .test, _, _, _, h => by
    simp at h
  | .seq first second, start, waiting, site, h => by
    rw [Layout.roles]
    rcases List.mem_append.1 h with h | h
    · exact (first.fed start waiting site h).left _
    · have hfirst : waitingAfter start waiting first.roles = waiting ++ [] := by
        rw [first.waitingAfter_roles, List.append_nil]
      exact .right hfirst (second.fed _ _ site h)
  | .call node passes, start, waiting, site, h => by
    rw [Layout.roles]
    rcases List.mem_append.1 h with h | h
    · exact (passes.fed start waiting site h).left _
    · obtain rfl := List.mem_singleton.1 h
      exact {
        reach := ⟨[], passes.roles, [], by simp, rfl, passes.waitingAfter_roles start waiting⟩
        passed := fun position hp => (passes.hasRole_of_mem start position hp).left _ }
  | .stmt code, start, waiting, site, h => code.fed start waiting site h

theorem Params.fed : (passes : Params) → (start : Nat) → (waiting : List Nat) →
    ∀ site ∈ passes.sites start, site.Fed start waiting passes.roles
  | .nil, _, _, _, h => by simp at h
  | .cons value rest, start, waiting, site, h => by
    rw [Params.roles, ← List.singleton_append, ← List.append_assoc]
    rcases List.mem_append.1 h with h | h
    · exact ((value.fed start waiting site h).left _).left _
    · have hvalue : waitingAfter start waiting (value.roles ++ [.pass]) =
          waiting ++ [start + value.roles.length] := by
        rw [waitingAfter_append, value.waitingAfter_roles]
        rfl
      refine .right hvalue ?_
      rw [List.length_append, List.length_singleton, ← Nat.add_assoc]
      exact rest.fed _ _ site h

end

mutual

/-- There are no other calls in the code. -/
theorem Layout.exists_site : (code : Layout) → (start : Nat) → {position count : Nat} →
    HasRole start code.roles position (.call count) →
      ∃ site ∈ code.sites start, site.position = position
  | .empty, _, _, _, h | .plain, _, _, _, h | .jump, _, _, _, h => by
    simp [HasRole, List.getElem?_singleton] at h
  | .test, start, _, _, h => by
    rw [Layout.roles, ← List.singleton_append, hasRole_append] at h
    simp [hasRole_singleton] at h
  | .seq first second, start, _, _, h => by
    rw [Layout.roles, hasRole_append] at h
    rcases h with h | h
    · obtain ⟨site, hsite, hpos⟩ := first.exists_site start h
      exact ⟨site, List.mem_append_left _ hsite, hpos⟩
    · obtain ⟨site, hsite, hpos⟩ := second.exists_site _ h
      exact ⟨site, List.mem_append_right _ hsite, hpos⟩
  | .call node passes, start, _, _, h => by
    rw [Layout.roles, hasRole_append, hasRole_singleton] at h
    rcases h with h | ⟨rfl, -⟩
    · obtain ⟨site, hsite, hpos⟩ := passes.exists_site start h
      exact ⟨site, List.mem_append_left _ hsite, hpos⟩
    · exact ⟨_, List.mem_append_right _ (List.mem_singleton.2 rfl), rfl⟩
  | .stmt code, start, _, _, h => code.exists_site start h

theorem Params.exists_site : (passes : Params) → (start : Nat) → {position count : Nat} →
    HasRole start passes.roles position (.call count) →
      ∃ site ∈ passes.sites start, site.position = position
  | .nil, _, _, _, h => by simp [HasRole] at h
  | .cons value rest, start, _, _, h => by
    rw [Params.roles, ← List.singleton_append, hasRole_append, hasRole_append,
      hasRole_singleton] at h
    rcases h with h | ⟨-, h⟩ | h
    · obtain ⟨site, hsite, hpos⟩ := value.exists_site start h
      exact ⟨site, List.mem_append_left _ hsite, hpos⟩
    · cases h
    · obtain ⟨site, hsite, hpos⟩ := rest.exists_site _ h
      exact ⟨site, List.mem_append_right _ hsite, hpos⟩

end

/-- What a test may skip is a jump. -/
def TestsJump (roles : List Role) : Prop :=
  ∀ k, roles[k]? = some .test → roles[k + 1]? = some .jump

theorem TestsJump.append {a b : List Role} (ha : TestsJump a) (hb : TestsJump b) :
    TestsJump (a ++ b) := by
  intro k hk
  by_cases hlt : k < a.length
  · rw [List.getElem?_append_left hlt] at hk
    have hjump := ha k hk
    rw [List.getElem?_append_left (List.getElem?_eq_some_iff.1 hjump).1, hjump]
  · rw [List.getElem?_append_right (by omega)] at hk
    rw [List.getElem?_append_right (by omega), Nat.sub_add_comm (by omega), hb _ hk]

theorem testsJump_singleton {r : Role} (h : r ≠ .test) : TestsJump [r] := by
  intro k hk
  obtain ⟨hlt, hr⟩ := List.getElem?_eq_some_iff.1 hk
  obtain rfl : k = 0 := by simpa using hlt
  exact absurd hr h

mutual

theorem Layout.testsJump : (code : Layout) → TestsJump code.roles
  | .empty => by simp [TestsJump]
  | .plain | .jump => testsJump_singleton (by simp)
  | .test => by
    intro k hk
    cases k with
    | zero => rfl
    | succ k => simp [List.getElem?_singleton] at hk
  | .seq first second => first.testsJump.append second.testsJump
  | .call _ passes => passes.testsJump.append (testsJump_singleton (by simp))
  | .stmt code => code.testsJump

theorem Params.testsJump : (passes : Params) → TestsJump passes.roles
  | .nil => by simp [TestsJump]
  | .cons value rest =>
    value.testsJump.append ((testsJump_singleton (by simp)).append rest.testsJump)

end

/-- A position that code reaches with the parameters that wait as they were. -/
def Idle (start : Nat) (waiting : List Nat) (roles : List Role) (position : Nat) : Prop :=
  ∃ before after, roles = before ++ after ∧ position = start + before.length ∧
    waitingAfter start waiting before = waiting

/-- No parameter is left when a statement begins or ends. -/
theorem Layout.idle_of_mem : (code : Layout) → (start : Nat) → (waiting : List Nat) →
    ∀ position ∈ code.boundaries start, Idle start waiting code.roles position
  | .empty, _, _, _, h | .plain, _, _, _, h | .jump, _, _, _, h | .test, _, _, _, h
  | .call _ _, _, _, _, h => by simp at h
  | .seq first second, start, waiting, position, h => by
    rcases List.mem_append.1 h with h | h
    · obtain ⟨before, after, hroles, hpos, hwait⟩ := first.idle_of_mem start waiting position h
      exact ⟨before, after ++ second.roles, by simp [hroles], hpos, hwait⟩
    · obtain ⟨before, after, hroles, hpos, hwait⟩ := second.idle_of_mem _ waiting position h
      refine ⟨first.roles ++ before, after, by simp [hroles], ?_, ?_⟩
      · rw [hpos, List.length_append]
        omega
      · rw [waitingAfter_append, first.waitingAfter_roles, hwait]
  | .stmt code, start, waiting, position, h => by
    rcases List.mem_cons.1 h with rfl | h
    · exact ⟨[], code.roles, rfl, rfl, rfl⟩
    rcases List.mem_cons.1 h with rfl | h
    · exact ⟨code.roles, [], (List.append_nil _).symm, rfl, code.waitingAfter_roles start waiting⟩
    · exact code.idle_of_mem start waiting position h

end ActorScript
