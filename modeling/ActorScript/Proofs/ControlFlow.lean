import ActorScript.Proofs.Compiled
import ActorScript.Proofs.Written

/-! # Control stays in the code

The last instruction of a finished function ends it, and from every other instruction each way
that control can take leads to an instruction of the function.
-/

namespace ActorScript

open Lowering

variable {d : Draft} {body : List Instr} {chunk : Chunk} {i last : Instr}

/-! ## Statements that end the function -/

/-- Lowering adds code that ends the function. -/
def Stmt.Halts (t : Target) (c : Context) (x : Lowering Unit) : Prop :=
  ∀ d u d', Sound c d → Yields t x d u d' → Stops d.code d'.code

section Statements

variable {t : Target} {c : Context} {x : Lowering Place} {y z : Lowering Unit} {f : Footprint}
  {clashes : Bool}

theorem Stmt.Performs.halts [Safe y] [Safe z] (hy : Stmt.Performs t c y clashes)
    (hz : Stmt.Halts t c z) : Stmt.Halts t c (y >>= fun _ => z) := by
  intro d u d' hd h
  obtain ⟨_, d1, hy', hz'⟩ := yields_bind.1 h
  have hp := hy d _ d1 hd hy'
  exact (hz d1 u d' hp.sound hz').behind hp.closes

theorem returnNothing_halts : Stmt.Halts t c returnNothing := by
  intro d u d' _ h
  obtain ⟨-, rfl⟩ := yields_emit.1 h
  rw [Draft.code_push]
  exact .push id rfl

theorem returnValue_halts [Safe x] (hx : Lowers t c x f) (ty : Ty) :
    Stmt.Halts t c (returnValue ty x) := by
  intro d u d' hd h
  simp only [returnValue, yields_steps] at h
  obtain ⟨place, d1, hx', h⟩ := h
  have hl := hx d place d1 hd hx'
  rw [if_neg (by simp [hl.plain.1])] at h
  split at h
  all_goals
    simp only [returnNothing, yields_steps] at h
    obtain ⟨-, -, rfl⟩ := h
    rw [Draft.code_drop, Draft.code_push]
    exact .push hl.closes rfl

theorem Ends.halts [Safe x] {e : Effect} (hx : Ends t c x e) (ty : Ty) :
    Stmt.Halts t c (returnValue ty x) := by
  intro d u d' hd h
  simp only [returnValue, yields_steps] at h
  obtain ⟨place, d1, hx', h⟩ := h
  obtain ⟨rfl, -, hstops⟩ := hx d place d1 hd hx'
  obtain ⟨-, rfl⟩ := yields_pure.1 h
  exact hstops

theorem Settled.returned_halts {e : Expr} (h : Settled c false e) (hk : t.kind = c.kind) :
    Stmt.Halts t c (returnValue e.markTail.ty e.markTail.lower) := by
  by_cases htail : e.markTail = e
  · rw [htail]
    exact returnValue_halts (h.performs hk) e.ty
  · obtain ⟨effect, -, hends⟩ := h.ends hk htail
    exact hends.halts _

theorem code_releaseAll {locals : List LocalId} {d' : Draft} {u : PUnit} (hc : c.target = none)
    (hd : Sound c d) (h : Yields t (locals.forM releaseHome) d u d') : d'.code = d.code := by
  induction locals generalizing d with
  | nil =>
    obtain ⟨-, rfl⟩ := yields_pure.1 h
    rfl
  | cons id rest ih =>
    obtain ⟨_, d1, hid, hrest⟩ := yields_bind.1 h
    obtain ⟨hd1, hcode, -⟩ := yields_releaseHome hd hid hc
    rw [ih hd1 hrest, hcode]

theorem lowerBody_halts {body : List Stmt}
    (hperforms : ∀ s ∈ body, Stmt.Performs t c s.lower s.clashes)
    (hhalts : ∀ s ∈ body, s.endsInReturn = true → Stmt.Halts t c s.lower)
    (h : lastReturns body = true) : Stmt.Halts t c (lowerBody body) := by
  induction body with
  | nil => cases h
  | cons s rest ih =>
    rw [lowerBody]
    cases rest with
    | nil =>
      intro d u d' hd hy
      obtain ⟨_, d1, hs, hnil⟩ := yields_bind.1 hy
      obtain ⟨-, rfl⟩ := yields_pure.1 hnil
      exact hhalts s (by simp) h d _ _ hd hs
    | cons s' rest =>
      exact (hperforms s (by simp)).halts (ih (fun s hs => hperforms s (by simp [hs]))
        (fun s hs => hhalts s (by simp [hs])) h)

theorem SettledStmt.halts {s : Stmt} (h : SettledStmt c s) (hk : t.kind = c.kind)
    (hc : c.target = none) (hends : s.endsInReturn = true) : Stmt.Halts t c s.lower := by
  induction h with
  | sequence hbody ih =>
    rw [Stmt.lower]
    exact lowerBody_halts (fun s hs => (hbody s hs).performs hk hc) ih hends
  | @block span body locals hbody ih =>
    have hperforms := fun s hs => (hbody s hs).performs (t := t) hk hc
    intro d u d' hd hy
    rw [Stmt.lower] at hy
    obtain ⟨_, d1, hlower, hreleased⟩ := yields_bind.1 hy
    have hd1 := (lowerBody_performs hperforms d _ d1 hd hlower).sound
    rw [code_releaseAll hc hd1 hreleased]
    exact lowerBody_halts hperforms ih hends d _ d1 hd hlower
  | @ret span value hvalue =>
    cases value with
    | none =>
      rw [Option.map_none, Stmt.lower]
      exact returnNothing_halts
    | some e =>
      rw [Option.map_some, Stmt.lower]
      exact (hvalue e rfl).returned_halts hk
  | _ => simp [Stmt.endsInReturn] at hends

end Statements

/-! ## Functions -/

section Functions

variable {c : Context} {w : World} {o : Options}

theorem Stmt.Halts.draft {x : Lowering Unit} {locals : Nat} (hx : Stmt.Halts ⟨w, o.kind⟩ c x)
    (hk : c.kind = o.kind) (hc : c.target = none)
    (h : (lowerFor w o locals x).2.assembler.finish = .ok chunk) :
    Stops [] (lowerFor w o locals x).2.code := by
  have hsound := Draft.start_sound o.name locals hc
  rw [hk] at hsound
  have hstops := hx _ _ _ hsound (yields_lowerFor (Assembler.faultless_of_finish h))
  rwa [Draft.start_eq] at hstops

theorem Stmt.Halts.thenReturns {t : Target} {y : Lowering Unit} [Safe y] (h : Stmt.Halts t c y)
    (returns : List String) :
    Stmt.Halts t c (y >>= fun _ => liftM (Assembly.setReturns returns)) := by
  intro d u d' hd hy
  obtain ⟨_, d1, hy', hset⟩ := yields_bind.1 hy
  obtain ⟨s, hdoes, rfl⟩ := yields_lift.1 hset
  obtain rfl := (Assembly.does_modify rfl).1 hdoes
  exact h d _ d1 hd hy'

theorem draftFunction_stops {params : List (String × Ty)} {body : Stmt} {s : Scope}
    (hbody : SettledStmt c body) (hk : c.kind = o.kind) (hc : c.target = none)
    (hparams : ∀ p ∈ (Scope.ofParams params).1.zip (params.map Prod.snd), c.types p.1 = p.2)
    (h : (draftFunction w o params body s).assembler.finish = .ok chunk) :
    Stops [] (draftFunction w o params body s).code := by
  have hperforms := hbody.performs (t := ⟨w, o.kind⟩) hk.symm hc
  have hend : Stmt.Halts ⟨w, o.kind⟩ c (do
      body.lower
      unless body.endsInReturn do
        returnNothing
      Assembly.setReturns (s.returns.map w.describe)) := by
    split
    next hends => exact (hbody.halts hk.symm hc hends).thenReturns _
    next => exact hperforms.halts (returnNothing_halts.thenReturns _)
  exact ((bindParams_performs hc hparams).halts hend).draft hk hc h

theorem draftDamage_stops {value : Expr} {s : Scope} (hvalue : Settled c false value)
    (hb : value.ty.bank? = some .int) (hk : c.kind = o.kind) (hc : c.target = none)
    (h : (draftDamage w o value s).assembler.finish = .ok chunk) :
    Stops [] (draftDamage w o value s).code := by
  have hsafe : Safe (returnDamage value) := by
    unfold returnDamage
    split <;> infer_instance
  have hmark : Stmt.Halts ⟨w, o.kind⟩ c (emitSigned .reti (.imm (finalReturn + 1)) 1) := by
    intro d u d' _ h
    obtain ⟨-, rfl⟩ := yields_emitSigned.1 h
    rw [Draft.code_push]
    exact .push id rfl
  exact ((returnDamage_performs hvalue hb hk.symm).halts (hmark.thenReturns _)).draft hk hc h

end Functions

/-! ## Words -/

/-- The code of an operation names it. -/
theorem Op.ofCode_code {op : Op} (h : ∀ n, op ≠ .unassigned n) :
    ofCode op.code = op ∧ op.code < 256 := by
  cases op with
  | unassigned n => exact absurd rfl (h n)
  | lk bank | move bank => cases bank <;> decide
  | load cell indexed => cases cell <;> cases indexed <;> decide
  | store cell indexed => cases cell <;> cases indexed <;> decide
  | shift op form => cases op <;> cases form <;> decide
  | commuting op constant => cases op <;> cases constant <;> decide
  | ordered op form => cases op <;> cases form <;> decide
  | equal kind constant => cases kind <;> cases constant <;> decide
  | compare relation comparand form =>
    cases relation <;> cases comparand <;> cases form <;> exact ⟨rfl, by decide⟩
  | nop | jmp | ijmp | test | ret | reti | li | cast | param | parami | call | callK | tail | tailK
  | result | bound | abs | neg | not | flop | atan2 => decide

namespace Instr

variable {i : Instr}

theorem low_lt (i : Instr) : i.low < 65536 := by
  cases i with
  | abc op a b c => simp only [low]; omega
  | abx op a bx => simp only [low]; omega
  | asbx op a offset => simp only [low]; omega

theorem toNat_encode (i : Instr) :
    i.encode.toNat = i.op.code % 256 * 0x1000000 + i.first.value % 256 * 0x10000 + i.low := by
  have hlow := i.low_lt
  rw [encode, UInt32.toNat_ofNat']
  omega

theorem op_encode (h : ∀ n, i.op ≠ .unassigned n) : Word.op i.encode = i.op := by
  obtain ⟨hdecode, hlt⟩ := Op.ofCode_code h
  have hlow := i.low_lt
  have hcode : Word.code i.encode = i.op.code := by
    rw [Word.code, toNat_encode]
    omega
  rw [Word.op, hcode, hdecode]

theorem a_encode (i : Instr) : Word.a i.encode = i.first.value % 256 := by
  have hlow := i.low_lt
  rw [Word.a, toNat_encode]
  omega

theorem bx_encode (i : Instr) : Word.bx i.encode = i.low := by
  have hlow := i.low_lt
  rw [Word.bx, toNat_encode]
  omega

theorem bmod_of_fits {n : Nat} {offset : Int} (hn : (n : Int) = offset % 65536)
    (h : fitsOffset offset = true) : (n : Int).bmod 65536 = offset := by
  simp only [fitsOffset, Bool.and_eq_true, decide_eq_true_eq] at h
  rw [Int.bmod]
  split <;> omega

theorem offset_encode {op : Op} {a : Operand} {offset : Int} (h : fitsOffset offset = true) :
    Word.offset (asbx op a offset).encode = offset := by
  unfold Word.offset
  apply bmod_of_fits _ h
  rw [bx_encode, low]
  exact Int.toNat_of_nonneg (Int.emod_nonneg _ (by decide))

end Instr

namespace Word

def isLast (w : UInt32) : Bool :=
  match op w with
  | .tailK => true
  | .ret | .reti => a w / finalReturn % 2 = 1
  | _ => false

def goesOn (w : UInt32) : Bool :=
  match op w with
  | .jmp | .ijmp => false
  | _ => !isLast w

/-- Control at a position can come to another. A drawn number is not above the one that was asked
for when it was drawn, three words before the jump by it. -/
inductive Leads (code : Array UInt32) (p : Nat) : Int → Prop
  | next {w : UInt32} : code[p]? = some w → goesOn w = true → Leads code p (p + 1)
  | skip {w : UInt32} : code[p]? = some w → (op w).skips = true → Leads code p (p + 2)
  | jump {w : UInt32} : code[p]? = some w → op w = .jmp → Leads code p (p + 1 + offset w)
  | pick {w v : UInt32} {k : Nat} : code[p]? = some w → op w = .ijmp → code[p - 3]? = some v →
      (k : Int) ≤ offset v → Leads code p (p + 1 + k)

/-- Control never leaves the code: it ends at the last word, and all ways lead to some word. Jumps
by a number lead into tables of jumps, for numbers drawn just before. -/
structure Contained (code : Array UInt32) : Prop where
  ends : ∃ w, code.back? = some w ∧ isLast w = true
  leads : ∀ p q, Leads code p q → 0 ≤ q ∧ q < code.size
  draws : ∀ (p : Nat) (w : UInt32), code[p]? = some w → op w = .ijmp →
    3 ≤ p ∧ ∃ v, code[p - 3]? = some v ∧ op v = .parami ∧
      ∀ k : Nat, k ≤ offset v → ∃ j, code[p + 1 + k]? = some j ∧ op j = .jmp

end Word

theorem Instr.isLast_encode (h : i.isLast = true) : Word.isLast i.encode = true := by
  have hmark (a : Nat) : a % 256 / finalReturn % 2 = a / finalReturn % 2 := by
    unfold finalReturn
    omega
  unfold isLast at h
  split at h
  · rw [Word.isLast, op_encode (by simp [op])]
    rfl
  · rw [Word.isLast, op_encode (by simp [op]), a_encode, first, Operand.value, hmark]
    exact h
  · rw [Word.isLast, op_encode (by simp [op]), a_encode, first, Operand.value, hmark]
    exact h
  · cases h

/-- A word of code with one more instruction is the word of that or of one before it. -/
theorem word_cases {p : Nat} {w : UInt32}
    (h : ((body ++ [last]).map Instr.encode).toArray[p]? = some w) :
    (p = body.length ∧ w = last.encode) ∨ ∃ i, body[p]? = some i ∧ w = i.encode := by
  rw [List.getElem?_toArray, List.getElem?_map, Option.map_eq_some_iff] at h
  obtain ⟨i, hi, rfl⟩ := h
  by_cases hp : p < body.length
  · rw [List.getElem?_append_left hp] at hi
    exact .inr ⟨i, hi, rfl⟩
  · have hlen := (List.getElem?_eq_some_iff.1 hi).1
    rw [List.length_append, List.length_singleton] at hlen
    obtain rfl : p = body.length := by omega
    rw [List.getElem?_concat_length] at hi
    exact .inl ⟨rfl, (Option.some.inj hi) ▸ rfl⟩

theorem word_of_instr {p : Nat} (h : body[p]? = some i) :
    ((body ++ [last]).map Instr.encode).toArray[p]? = some i.encode := by
  have hlt := (List.getElem?_eq_some_iff.1 h).1
  rw [List.getElem?_toArray, List.getElem?_map, List.getElem?_append_left hlt, h]
  rfl

theorem Instr.isLast_op (h : i.isLast = true) : i.op = .tailK ∨ i.op = .ret ∨ i.op = .reti := by
  unfold isLast at h
  split at h <;> simp_all [op]

/-- Closed code with an instruction behind it that ends the function contains control. -/
theorem Closed.contained (hc : Closed body) (hlast : last.isLast = true) :
    Word.Contained ((body ++ [last]).map Instr.encode).toArray := by
  have hop := Instr.isLast_op hlast
  have hdecode : Word.op last.encode = last.op :=
    Instr.op_encode fun n hn => by rcases hop with h | h | h <;> cases hn.symm.trans h
  have hsize : ((body ++ [last]).map Instr.encode).toArray.size = body.length + 1 := by simp
  have hends : Word.goesOn last.encode = false := by
    rw [Word.goesOn, hdecode, Instr.isLast_encode hlast]
    rcases hop with h | h | h <;> rw [h] <;> rfl
  -- The words that stand before the last one decode to the instructions of closed code.
  have hbody {p : Nat} {i : Instr} (h : body[p]? = some i) :
      p < body.length ∧ Word.op i.encode = i.op ∧ i.Lands body p :=
    ⟨(List.getElem?_eq_some_iff.1 h).1, Instr.op_encode (hc p i h).assigned, hc p i h⟩
  have hdraws {p : Nat} {w : UInt32}
      (hw : ((body ++ [last]).map Instr.encode).toArray[p]? = some w) (hop' : Word.op w = .ijmp) :
      ∃ q count n, p = q + 4 ∧ Picks body q count n := by
    rcases word_cases hw with ⟨-, rfl⟩ | ⟨i, hi, rfl⟩
    · rw [hdecode] at hop'
      rcases hop with h | h | h <;> cases hop'.symm.trans h
    · obtain ⟨-, hdec, hland⟩ := hbody hi
      exact hland.pick (hdec ▸ hop')
  have hrange {q count n : Nat} (h : Picks body q count n) :
      ((body ++ [last]).map Instr.encode).toArray[q + 1]? =
        some (Instr.asbx .parami (.imm 0) ((count : Int) - 1)).encode ∧
      Word.offset (Instr.asbx .parami (.imm 0) ((count : Int) - 1)).encode = (count : Int) - 1 :=
    ⟨word_of_instr h.high, Instr.offset_encode h.fits⟩
  constructor
  · exact ⟨last.encode, by simp, Instr.isLast_encode hlast⟩
  · intro p q h
    rw [hsize]
    cases h with
    | next hw hgoes =>
      rcases word_cases hw with ⟨-, rfl⟩ | ⟨i, hi, rfl⟩
      · rw [hends] at hgoes
        cases hgoes
      · have := (hbody hi).1
        omega
    | skip hw hskips =>
      rcases word_cases hw with ⟨-, rfl⟩ | ⟨i, hi, rfl⟩
      · rw [hdecode] at hskips
        rcases hop with h | h | h <;> rw [h] at hskips <;> cases hskips
      · obtain ⟨-, hdec, hland⟩ := hbody hi
        have := hland.skip (hdec ▸ hskips)
        omega
    | jump hw hjmp =>
      rcases word_cases hw with ⟨-, rfl⟩ | ⟨i, hi, rfl⟩
      · rw [hdecode] at hjmp
        rcases hop with h | h | h <;> cases hjmp.symm.trans h
      · obtain ⟨-, hdec, hland⟩ := hbody hi
        obtain ⟨offset, rfl, hfits, hlow, hhigh⟩ := hland.jump (hdec ▸ hjmp)
        rw [Instr.offset_encode hfits]
        omega
    | @pick _ _ k hw hijmp hv hk =>
      obtain ⟨q, count, n, rfl, hpicks⟩ := hdraws hw hijmp
      obtain ⟨hword, hoffset⟩ := hrange hpicks
      cases hword.symm.trans hv
      rw [hoffset] at hk
      obtain ⟨offset, hentry⟩ := hpicks.table k (by omega)
      have := (List.getElem?_eq_some_iff.1 hentry).1
      omega
  · intro p w hw hijmp
    obtain ⟨q, count, n, rfl, hpicks⟩ := hdraws hw hijmp
    obtain ⟨hword, hoffset⟩ := hrange hpicks
    refine ⟨by omega, _, hword, Instr.op_encode (by simp [Instr.op]), fun k hk => ?_⟩
    rw [hoffset] at hk
    obtain ⟨offset, hentry⟩ := hpicks.table k (by omega)
    exact ⟨_, word_of_instr hentry, Instr.op_encode (by simp [Instr.op])⟩

/-! ## Compiled functions -/

theorem Draft.code_of_finish (h : d.assembler.finish = .ok chunk) :
    chunk.code = (d.code.map Instr.encode).toArray := by
  unfold Assembler.finish at h
  split at h <;> cases h
  apply Array.ext'
  simp [Draft.code]

theorem Stops.contained (h : Stops [] d.code) (hfinish : d.assembler.finish = .ok chunk) :
    Word.Contained chunk.code := by
  obtain ⟨body, last, hcode, hlast, hclosed⟩ := h
  rw [Draft.code_of_finish hfinish, hcode]
  exact (hclosed closed_nil).contained hlast

/-- Control never leaves the code of a compiled function or damage expression: the last word is a
final return or a tail call, and every way that control can take leads to a word of the code. -/
theorem compiled_control_contained (w : World) (o : Options) :
    (∀ params text body compiled, parseBody text = .ok body →
      compileFunction w o params body = .ok compiled → Word.Contained compiled.chunk.code) ∧
    ∀ text e compiled, parseExpression text = .ok e → compileDamage w o e = .ok compiled →
      Word.Contained compiled.chunk.code := by
  constructor
  · intro params text body compiled hparse hcompile
    obtain ⟨body', s, hsettle, hfinish⟩ := compileFunction_ok hcompile
    have hbody := settleFunction_accepted (parseBody_written hparse) hsettle
    have hparams := fun p hp => hbody.paramType (p := p) hp
    exact (draftFunction_stops hbody.settled rfl rfl hparams hfinish).contained hfinish
  · intro text e compiled hparse hcompile
    obtain ⟨value, s, hsettle, hfinish⟩ := compileDamage_ok hcompile
    obtain ⟨hvalue, hbank⟩ := settleDamage_settled (parseExpression_written hparse) hsettle
    exact (draftDamage_stops hvalue hbank rfl rfl hfinish).contained hfinish

/-- A loop with a jump out of it, behind which a value is picked at random. -/
theorem compiled_control_contained_pick :
    ∃ body compiled,
      parseBody "int x; while (x < 9) { if (x == 3) break; x++; } return randompick(1, x);" =
        .ok body ∧
      compileFunction {} {} [] body = .ok compiled ∧ Word.Contained compiled.chunk.code := by
  obtain ⟨body, compiled, hparse, hcompile⟩ := exists_compiled {} {} []
    "int x; while (x < 9) { if (x == 3) break; x++; } return randompick(1, x);" (by decide +kernel)
  exact ⟨body, compiled, hparse, hcompile,
    (compiled_control_contained {} {}).1 [] _ body compiled hparse hcompile⟩

end ActorScript
