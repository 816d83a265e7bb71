import ActorScript.Proofs.Bindings
import ActorScript.Proofs.ControlFlow

/-! # Variables are written before they are read

On every way through the code of a function, the register of a variable is written by its
declaration before control comes to where the variable has it.
-/

namespace ActorScript

open Lowering

/-! ## Words that write registers -/

/-- The bank and the number of the register that an operation writes, with the fields of its
word. -/
def Op.target? (a c bx : Nat) : Op → Option Register
  | .load cell _ => some (cell.bank, a)
  | .move bank | .lk bank => some (bank, a)
  | .cast => (Conversion.banks? c).map fun banks => (banks.1, a)
  | .shift _ _ | .abs | .neg | .not | .li => some (.int, a)
  | .commuting op _ => some (op.bank, a)
  | .ordered op _ => some (op.bank, a)
  | .flop | .atan2 => some (.float, a)
  | .result =>
      match Slot.tagged a with
      | .register bank => some (bank, bx)
      | _ => none
  | _ => none

namespace Word

def target? (w : UInt32) : Option Register :=
  (op w).target? (a w) (c w) (bx w)

/-- A way of control from the start of the code to a position, with the positions before it. -/
inductive Way (code : Array UInt32) : List Nat → Nat → Prop
  | start : Way code [] 0
  | step {passed : List Nat} {p q : Nat} : Way code passed p → Leads code p q →
      Way code (passed ++ [p]) q

/-- Whenever control is where the variable has its register, the declaration has written it. -/
def Initialised (code : Array UInt32) (b : Binding) : Prop :=
  ∃ r, b.register? = some r ∧ ∀ passed p, Way code passed p → b.bound ≤ p → p < b.release →
    ∃ q ∈ passed, b.start ≤ q ∧ q < b.bound ∧ ∃ w, code[q]? = some w ∧ target? w = some r

end Word

theorem Conversion.lt_of_banks {n : Nat} {banks : Bank × Bank} (h : banks? n = some banks) :
    n < 256 := by
  unfold banks? at h
  split at h <;> first | omega | cases h

theorem Slot.lt_of_tagged {n : Nat} {bank : Bank} (h : tagged n = .register bank) : n < 256 := by
  unfold tagged at h
  split at h <;> first | omega | cases h

namespace Instr

variable {i : Instr}

theorem c_encode (op : Op) (a b c : Operand) : Word.c (abc op a b c).encode = c.value % 256 := by
  rw [Word.c, toNat_encode, low]
  omega

/-- What an instruction writes is read back from its word. -/
theorem target?_encode {r : Register} (h : i.target? = some r) (hr : r.2 < 256) :
    Word.target? i.encode = some r := by
  have hassigned (n : Nat) (hn : i.op = .unassigned n) : False := by
    cases i <;> cases hn <;> cases h
  have hmod {n : Nat} (hn : n < 256) : n % 256 = n := Nat.mod_eq_of_lt hn
  rw [Word.target?, op_encode hassigned, a_encode]
  cases i with
  | abc op a b c =>
    rw [c_encode]
    cases op with
    | cast =>
      obtain ⟨banks, hbanks, rfl⟩ := Option.map_eq_some_iff.1 h
      change (Conversion.banks? (c.value % 256)).map (fun banks => (banks.1, a.value % 256)) = _
      rw [hmod (Conversion.lt_of_banks hbanks), hmod hr, hbanks]
      rfl
    | load | move | shift | abs | neg | not | commuting | ordered | flop | atan2 =>
      cases h
      exact congrArg (fun n => some (_, n)) (hmod hr)
    | _ => cases h
  | abx op a bx =>
    rw [bx_encode]
    cases op with
    | lk =>
      cases h
      exact congrArg (fun n => some (_, n)) (hmod hr)
    | result =>
      simp only [target?] at h
      split at h
      next bank hbank =>
        cases h
        have hbx : bx.value % 65536 = bx.value := Nat.mod_eq_of_lt (hr.trans (by decide))
        simp only [Instr.op, first, low, hmod (Slot.lt_of_tagged hbank), Op.target?, hbank, hbx]
      next => cases h
    | _ => cases h
  | asbx op a offset =>
    cases op with
    | li =>
      cases h
      exact congrArg (fun n => some (_, n)) (hmod hr)
    | _ => cases h

end Instr

/-! ## Ways through the code -/

/-- Words lead where the instructions of closed code lead. -/
theorem Closed.leads_of_words {code : List Instr} (hc : Closed code) {p q : Nat}
    (h : Word.Leads (code.map Instr.encode).toArray p q) : Leads code p q := by
  have hword {k : Nat} {w : UInt32} (hw : (code.map Instr.encode).toArray[k]? = some w) :
      ∃ i, code[k]? = some i ∧ w = i.encode ∧ Word.op w = i.op := by
    rw [List.getElem?_toArray, List.getElem?_map, Option.map_eq_some_iff] at hw
    obtain ⟨i, hi, rfl⟩ := hw
    exact ⟨i, hi, rfl, Instr.op_encode (hc k i hi).assigned⟩
  generalize hq : (q : Int) = target at h
  cases h with
  | next hw hgoes =>
    obtain ⟨i, hi, rfl, hop⟩ := hword hw
    obtain rfl : q = p + 1 := by omega
    rw [Word.goesOn, hop] at hgoes
    exact .next hi (fun h => by simp [h] at hgoes) (fun h => by simp [h] at hgoes)
  | skip hw hskips =>
    obtain ⟨i, hi, rfl, hop⟩ := hword hw
    obtain rfl : q = p + 2 := by omega
    exact .skip hi (hop ▸ hskips)
  | jump hw hjmp =>
    obtain ⟨i, hi, rfl, hop⟩ := hword hw
    obtain ⟨offset, rfl, hfits, -⟩ := (hc p i hi).jump (hop ▸ hjmp)
    rw [Instr.offset_encode hfits] at hq
    exact .jump hi hq
  | @pick _ v k hw hijmp hv hk =>
    obtain ⟨i, hi, rfl, hop⟩ := hword hw
    obtain ⟨q', count, n, rfl, hpicks⟩ := (hc p i hi).pick (hop ▸ hijmp)
    obtain ⟨j, hj, rfl, -⟩ := hword hv
    cases hj.symm.trans hpicks.high
    rw [Instr.offset_encode hpicks.fits] at hk
    obtain rfl : q = q' + 5 + k := by omega
    exact .pick hpicks (by omega)

/-- On a way to where a guarded register is bound, the declaration writes it: before that control
is outside, or still in the declaration with the register unwritten. -/
theorem Binding.Guarded.written {code : List Instr} {b : Binding} {r : Register}
    (h : b.Guarded r code) (hc : Closed code) (hr : r.2 < 256) {passed : List Nat} {p : Nat}
    (hway : Word.Way (code.map Instr.encode).toArray passed p) :
    (∃ q ∈ passed, b.start ≤ q ∧ q < b.bound ∧
      ∃ w, (code.map Instr.encode).toArray[q]? = some w ∧ Word.target? w = some r) ∨
    p ≤ b.start ∨ b.release ≤ p ∨ Dry code r b.start p := by
  induction hway with
  | start => exact .inr (.inl (Nat.zero_le _))
  | @step passed p q _ hleads ih =>
    have hl := hc.leads_of_words hleads
    -- In the declaration, control goes on with the register written or unwritten.
    have hdeclaring (hdry : Dry code r b.start p) :
        (∃ q ∈ passed ++ [p], b.start ≤ q ∧ q < b.bound ∧
          ∃ w, (code.map Instr.encode).toArray[q]? = some w ∧ Word.target? w = some r) ∨
        q ≤ b.start ∨ b.release ≤ q ∨ Dry code r b.start q := by
      have hp := h.filled p hdry
      by_cases hwrites : ∃ i, code[p]? = some i ∧ i.target? = some r
      · obtain ⟨i, hi, htarget⟩ := hwrites
        refine .inl ⟨p, by simp, hp.1, hp.2, i.encode, ?_, Instr.target?_encode htarget hr⟩
        simp [hi]
      · exact .inr (.inr (.inr (hdry.step (fun i hi htarget => hwrites ⟨i, hi, htarget⟩) hl)))
    rcases ih with ⟨k, hk, hwritten⟩ | hp | hp | hdry
    · exact .inl ⟨k, List.mem_append_left _ hk, hwritten⟩
    · rcases Nat.lt_or_eq_of_le hp with hp | rfl
      · have := fun hlow hhigh => h.entered p q hl hlow hhigh
        exact .inr (by omega)
      · exact hdeclaring .start
    · have := fun hlow hhigh => h.entered p q hl hlow hhigh
      exact .inr (by omega)
    · exact hdeclaring hdry

/-! ## Functions -/

/-- Bindings of all the variables that the body of a function declares. -/
def bindingsOfBody (w : World) (o : Options) (params : List (String × Ty)) (body : Stmt)
    (s : Scope) : List Binding :=
  body.scope ⟨w, o.kind⟩ (after ⟨w, o.kind⟩
    (bindParams ((Scope.ofParams params).1.zip (params.map Prod.snd)))
    (Draft.start o.name o.kind s.locals.size))

section Functions

variable {c : Context} {w : World} {o : Options} {params : List (String × Ty)} {body : Stmt}
  {s : Scope} {chunk : Chunk}

theorem draftFunction_guards {lo : Nat} (hbody : SettledStmt c body) (hk : c.kind = o.kind)
    (hc : c.target = none) (hs : body.Allots lo s.locals.size)
    (hparams : ∀ p ∈ (Scope.ofParams params).1.zip (params.map Prod.snd), c.types p.1 = p.2)
    (h : (draftFunction w o params body s).assembler.finish = .ok chunk) :
    Closed (draftFunction w o params body s).code ∧
      ∀ b ∈ bindingsOfBody w o params body s, ∃ r, b.register? = some r ∧ r.2 < 256 ∧
        b.Guarded r (draftFunction w o params body s).code := by
  have hend : Stmt.Performs ⟨w, o.kind⟩ c (do
      unless body.endsInReturn do
        returnNothing
      Assembly.setReturns (s.returns.map w.describe)) false := by
    split
    · exact setReturns_performs _
    · exact returnNothing_performs.andThen (setReturns_performs (s.returns.map w.describe))
  have hsound := Draft.start_sound o.name s.locals.size hc
  rw [hk] at hsound
  have hsize : (Draft.start o.name o.kind s.locals.size).homes.size = s.locals.size := by
    simp [Draft.start_eq]
  have hnone : Closed (Draft.start o.name o.kind s.locals.size).code := by
    rw [Draft.start_eq]
    exact closed_nil
  have hyields := yields_lowerFor (Assembler.faultless_of_finish h)
  obtain ⟨_, d1, hparams', hrest⟩ := yields_bind.1 hyields
  obtain ⟨_, d2, hlower, hend'⟩ := yields_bind.1 hrest
  have hp1 := bindParams_performs hc hparams _ _ d1 hsound hparams'
  have hp2 := hbody.performs hk.symm hc d1 _ d2 hp1.sound hlower
  have hp3 := hend d2 _ _ hp2.sound hend'
  have hclosed1 := hp1.closes hnone
  have hclosed2 := hp2.closes hclosed1
  have hg := (hbody.scope_binds hk.symm hc hs d1 _ d2 hp1.sound hclosed1
    (hp1.size.trans hsize).ge hlower).later hclosed2 hp3
  refine ⟨hp3.closes hclosed2, ?_⟩
  rw [bindingsOfBody, hparams'.after_eq]
  exact hg.guarded

/-- Variables of a compiled function are written before control comes to where they have their
registers. -/
theorem Binding.Guarded.initialised {d : Draft} {b : Binding} {r : Register}
    (h : b.Guarded r d.code) (hr : b.register? = some r) (hlt : r.2 < 256) (hc : Closed d.code)
    (hfinish : d.assembler.finish = .ok chunk) : Word.Initialised chunk.code b := by
  rw [Draft.code_of_finish hfinish]
  refine ⟨r, hr, fun passed p hway hlow hhigh => ?_⟩
  rcases h.written hc hlt hway with hwritten | hp | hp | hdry
  · exact hwritten
  · have := h.declared
    omega
  · omega
  · have := h.filled p hdry
    omega

end Functions

/-- On every way through a compiled function, the declaration of a variable has written its
register before control comes to code in which the variable has it. That code goes to the end of
the block of the declaration. It goes to the end of the declaration itself if that is a branch or
the body of a loop without a block of its own, which control may go around. -/
theorem compiled_variables_initialised (w : World) (o : Options) (params : List (String × Ty))
    (text : String) (body : Stmt) (compiled : Compiled) (hparse : parseBody text = .ok body)
    (hcompile : compileFunction w o params body = .ok compiled) :
    ∃ body' s, settleFunction w o params body = .ok (body', s) ∧
      (∀ span name type value id, body'.Part (.declare span name type value (some id)) →
        ∃ b ∈ bindingsOfBody w o params body' s, b.id = id) ∧
      ∀ b ∈ bindingsOfBody w o params body' s, Word.Initialised compiled.chunk.code b := by
  obtain ⟨body', s, hsettle, hfinish⟩ := compileFunction_ok hcompile
  have hbody := settleFunction_accepted (parseBody_written hparse) hsettle
  have hparams := fun p hp => hbody.paramType (p := p) hp
  obtain ⟨hclosed, hguards⟩ :=
    draftFunction_guards hbody.settled rfl rfl hbody.placed.allots hparams hfinish
  refine ⟨body', s, hsettle, fun span name type value id hpart => ?_, fun b hb => ?_⟩
  · exact (hbody.settled.lists hpart).scope _
  · obtain ⟨r, hr, hlt, hguarded⟩ := hguards b hb
    exact hguarded.initialised hr hlt hclosed hfinish

/-- The inner variable is declared anew in every round of the loop, also after the jump. -/
theorem compiled_variables_initialised_loop :
    ∃ body compiled body' s,
      parseBody "int x = 1; while (x < 9) { x++; if (x == 3) continue; int y = x; x += y; } return x;" =
        .ok body ∧
      compileFunction {} {} [] body = .ok compiled ∧
      settleFunction {} {} [] body = .ok (body', s) ∧
      (∀ span name type value id, body'.Part (.declare span name type value (some id)) →
        ∃ b ∈ bindingsOfBody {} {} [] body' s, b.id = id) ∧
      ∀ b ∈ bindingsOfBody {} {} [] body' s, Word.Initialised compiled.chunk.code b := by
  obtain ⟨body, compiled, hparse, hcompile⟩ := exists_compiled {} {} []
    "int x = 1; while (x < 9) { x++; if (x == 3) continue; int y = x; x += y; } return x;"
    (by decide +kernel)
  obtain ⟨body', s, h⟩ :=
    compiled_variables_initialised {} {} [] _ body compiled hparse hcompile
  exact ⟨body, compiled, body', s, hparse, hcompile, h⟩

/-- Control that goes around the declaration comes to a read of the register, which nothing on
the way has written. The declaration ends at position 4, and so does the code for which its
variable is known to be written. -/
theorem unbraced_declaration_passed_by :
    ∃ body compiled body' s w, parseBody "bool b; if (b) int x = 5; int y = x;" = .ok body ∧
      compileFunction {} {} [] body = .ok compiled ∧
      settleFunction {} {} [] body = .ok (body', s) ∧
      ⟨1, some (.int, 1), 3, 4, 4⟩ ∈ bindingsOfBody {} {} [] body' s ∧
      Word.Way compiled.chunk.code [0, 1, 2] 4 ∧ compiled.chunk.code[4]? = some w ∧
      Word.op w = .move .int ∧ Word.b w = 1 ∧
      ∀ q ∈ [0, 1, 2], ∀ v ∈ compiled.chunk.code[q]?, Word.target? v ≠ some (.int, 1) := by
  have hrun : ((parseBody "bool b; if (b) int x = 5; int y = x;").toOption.bind fun body =>
      (compileFunction {} {} [] body).toOption.bind fun compiled =>
      (settleFunction {} {} [] body).toOption.map fun settled =>
        (compiled.chunk.code, bindingsOfBody {} {} [] settled.1 settled.2)) =
      some (#[100663296, 1644232704, 16777217, 100728837, 721551616, 75499520],
        [⟨0, some (.int, 0), 0, 1, 5⟩, ⟨2, some (.int, 2), 4, 5, 5⟩, ⟨1, some (.int, 1), 3, 4, 4⟩]) := by
    decide +kernel
  obtain ⟨body, hparse, hrun⟩ := Option.bind_eq_some_iff.1 hrun
  obtain ⟨compiled, hcompile, hrun⟩ := Option.bind_eq_some_iff.1 hrun
  obtain ⟨⟨body', s⟩, hsettle, hrun⟩ := Option.map_eq_some_iff.1 hrun
  obtain ⟨hcode, hbindings⟩ := Prod.ext_iff.1 hrun
  simp only at hcode hbindings
  refine ⟨body, compiled, body', s, 721551616, eq_ok_of_toOption hparse, eq_ok_of_toOption hcompile,
    eq_ok_of_toOption hsettle, ?_, ?_, ?_, by decide +kernel, by decide, ?_⟩
  · simp [hbindings]
  · have h₁ : Word.Way compiled.chunk.code [0] 1 :=
      Word.Way.start.step (.next (w := 100663296) (by rw [hcode]; rfl) (by decide +kernel))
    have h₂ : Word.Way compiled.chunk.code [0, 1] 2 :=
      h₁.step (.next (w := 1644232704) (by rw [hcode]; rfl) (by decide +kernel))
    have hjump : Word.Leads compiled.chunk.code 2 _ :=
      .jump (w := 16777217) (by rw [hcode]; rfl) (by decide +kernel)
    rw [show Word.offset 16777217 = 1 by decide +kernel] at hjump
    exact h₂.step hjump
  · rw [hcode]
    rfl
  · intro q hq v hv
    rw [hcode] at hv
    simp only [List.mem_cons, List.not_mem_nil, or_false] at hq
    rcases hq with rfl | rfl | rfl
    · obtain rfl : (100663296 : UInt32) = v := Option.some.inj hv
      decide +kernel
    · obtain rfl : (1644232704 : UInt32) = v := Option.some.inj hv
      decide +kernel
    · obtain rfl : (16777217 : UInt32) = v := Option.some.inj hv
      decide +kernel

end ActorScript
