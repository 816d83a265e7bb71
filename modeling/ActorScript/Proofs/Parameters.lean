import ActorScript.Proofs.ControlFlow
import ActorScript.Proofs.Parameters.Trees

/-! # Calls get their parameters

On every way that control can take through a compiled function, a call finds the parameters that
were passed for it behind all others that wait, and none waits where a statement begins or ends.
-/

namespace ActorScript

open Lowering

variable {x : Lowering Unit} {chunk : Chunk} {s : Scope} {count n : Nat} {code : List Instr}
  {w : World}

/-! ## Drafts of functions -/

/-- Code with a layout whose jumps are level. -/
structure Draft.Balanced (d : Draft) (layout : Layout) : Prop where
  roles_eq : d.roles = layout.roles
  level : Level d.code

instance Quiet.setReturns (returns : List String) :
    Quiet (liftM (Assembly.setReturns returns) : Lowering Unit) :=
  .of_code fun _ _ _ _ h => by
    obtain ⟨s, hdoes, rfl⟩ := yields_lift.1 h
    obtain rfl := (Assembly.does_modify rfl).1 hdoes
    exact ⟨rfl, rfl⟩

section Functions

variable {w : World} {o : Options}

theorem Stmt.Lays.draft {locals : Nat} {ss : List Stmt} {es : List Expr}
    (hx : Stmt.Lays ⟨w, o.kind⟩ x ss es)
    (h : (lowerFor w o locals x).2.assembler.finish = .ok chunk) :
    ∃ layout, Pieces ss es layout ∧ (lowerFor w o locals x).2.Balanced layout := by
  have hrest : (Draft.start o.name o.kind locals).AtRest := by
    rw [Draft.start_eq]
    exact ⟨rfl, level_nil, by simp⟩
  have hyields := yields_lowerFor (Assembler.faultless_of_finish h)
  obtain ⟨layout, hpieces, hcovers⟩ := hx _ _ _ hrest hyields
  refine ⟨layout, hpieces, ?_, hcovers.atRest.level⟩
  rw [hcovers.roles_eq, Draft.start_eq]
  rfl

theorem draftFunction_balanced {params : List (String × Ty)} {body : Stmt}
    (hbody : Counted body.counts)
    (h : (draftFunction w o params body s).assembler.finish = .ok chunk) :
    ∃ layout, Pieces [body] [] layout ∧ (draftFunction w o params body s).Balanced layout := by
  refine Stmt.Lays.draft ?_ h
  have hparams : Stmt.Lays ⟨w, o.kind⟩
      (bindParams ((Scope.ofParams params).1.zip (params.map Prod.snd))) [body] [] := by
    unfold bindParams
    exact .ofLays (.forM fun _ _ => ⟨by unfold bindHome; infer_instance, .ofQuiet⟩)
  refine hparams.bind fun _ => (body.laysOut hbody |>.part (by simp)).bind fun _ => ?_
  split
  · exact .ofQuiet
  · exact .ofQuiet

theorem draftDamage_balanced {value : Expr} (hvalue : Counted value.counts)
    (h : (draftDamage w o value s).assembler.finish = .ok chunk) :
    ∃ layout, Pieces [] [value] layout ∧ (draftDamage w o value s).Balanced layout := by
  refine Stmt.Lays.draft ?_ h
  have hreturn : Lays ⟨w, o.kind⟩ (returnDamage value) [value] := by
    unfold returnDamage
    split
    · exact .ofQuiet
    · exact ((value.laysOut hvalue).lays (by simp)).bind fun _ => .ofQuiet
  have hsafe : Safe (returnDamage value) := by
    unfold returnDamage
    split <;> infer_instance
  exact .ofLays (hreturn.bind fun _ => .ofQuiet)

end Functions

/-! ## Ways through code -/

namespace Word

def role (w : UInt32) : Role :=
  (op w).role (b w)

/-- Control can come from the start of the code to a position while parameters wait. -/
inductive Comes (code : Array UInt32) : Nat → List Nat → Prop
  | start : Comes code 0 []
  | step {p q : Nat} {waiting : List Nat} {w : UInt32} : Comes code p waiting →
      code[p]? = some w → Leads code p q → Comes code q ((role w).after p waiting)

/-- On every way through code with a layout, each call takes the parameters that were passed for
it, and no parameter waits where a statement begins or ends. -/
structure Balanced (code : Array UInt32) (layout : Layout) : Prop where
  roles_eq : code.toList.map role = layout.roles
  calls : ∀ p w count, code[p]? = some w → role w = .call count →
    ∃ site ∈ layout.sites 0, site.position = p
  sites : ∀ site ∈ layout.sites 0,
    (∃ w, code[site.position]? = some w ∧ role w = .call site.params.length) ∧
    (∀ p ∈ site.params, ∃ w, code[p]? = some w ∧ role w = .pass) ∧
    ∀ waiting, Comes code site.position waiting → ∃ outer, waiting = outer ++ site.params
  boundaries : ∀ p ∈ layout.boundaries 0, ∀ waiting, Comes code p waiting → waiting = []

end Word

theorem Instr.role_encode {i : Instr} (h : ∀ n, i.op ≠ .unassigned n) :
    Word.role i.encode = i.role := by
  have hlow := i.low_lt
  have hb : Word.b i.encode = i.low / 256 := by
    rw [Word.b, toNat_encode]
    omega
  rw [Word.role, op_encode h, hb, Instr.role]

theorem Op.role_of_skips {op : Op} (h : op.skips = true) : op.role count = .test := by
  cases op <;> simp_all [skips, role]

/-- Code with level jumps, all of which is read back from its words. -/
structure Readable (code : List Instr) : Prop where
  level : Level code
  assigned : ∀ i ∈ code, ∀ n, i.op ≠ .unassigned n
  fits : ∀ a offset, .asbx .jmp a offset ∈ code → fitsOffset offset = true
  contained : Word.Contained (code.map Instr.encode).toArray

theorem Stops.readable (h : Stops [] code) (hlevel : Level code) : Readable code := by
  obtain ⟨body, last, rfl, hlast, hclosed⟩ := h
  have hlands {i : Instr} (hi : i ∈ body) : ∃ p, i.Lands body p := by
    obtain ⟨p, hp⟩ := List.mem_iff_getElem?.1 hi
    exact ⟨p, hclosed closed_nil p i hp⟩
  have hop := Instr.isLast_op hlast
  refine ⟨hlevel, fun i hi n hn => ?_, fun a offset hi => ?_,
    (hclosed closed_nil).contained hlast⟩
  · rcases List.mem_append.1 hi with hi | hi
    · obtain ⟨p, hland⟩ := hlands hi
      exact hland.assigned n hn
    · obtain rfl := List.mem_singleton.1 hi
      rcases hop with h | h | h <;> cases hn.symm.trans h
  · rcases List.mem_append.1 hi with hi | hi
    · obtain ⟨p, hland⟩ := hlands hi
      obtain ⟨offset', heq, hfits, -⟩ := hland.jump rfl
      cases heq
      exact hfits
    · obtain rfl := List.mem_singleton.1 hi
      simp [Instr.op] at hop

namespace Readable

variable {code : List Instr} {layout : Layout} {p q : Nat} {w : UInt32} {waiting : List Nat}

theorem word (h : Readable code) (hw : (code.map Instr.encode).toArray[p]? = some w) :
    ∃ i, code[p]? = some i ∧ w = i.encode ∧ Word.op w = i.op ∧ Word.role w = i.role := by
  rw [List.getElem?_toArray, List.getElem?_map, Option.map_eq_some_iff] at hw
  obtain ⟨i, hi, rfl⟩ := hw
  have hassigned := h.assigned i (List.mem_of_getElem? hi)
  exact ⟨i, hi, rfl, Instr.op_encode hassigned, Instr.role_encode hassigned⟩

theorem roles_eq (h : Readable code) (hlayout : code.map Instr.role = layout.roles) :
    (code.map Instr.encode).toArray.toList.map Word.role = layout.roles := by
  rw [← hlayout, List.toList_toArray, List.map_map]
  refine List.map_congr_left fun i hi => ?_
  rw [Function.comp_apply, Instr.role_encode (h.assigned i hi)]

theorem role_at (h : Readable code) (hlayout : code.map Instr.role = layout.roles)
    (hw : (code.map Instr.encode).toArray[p]? = some w) :
    layout.roles[p]? = some (Word.role w) := by
  obtain ⟨i, hi, -, -, hrole⟩ := h.word hw
  rw [← hlayout, List.getElem?_map, hi, hrole]
  rfl

theorem word_at (h : Readable code) (hlayout : code.map Instr.role = layout.roles) {r : Role}
    (hr : layout.roles[p]? = some r) :
    ∃ w, (code.map Instr.encode).toArray[p]? = some w ∧ Word.role w = r := by
  rw [← h.roles_eq hlayout, List.getElem?_map, Option.map_eq_some_iff] at hr
  obtain ⟨w, hw, rfl⟩ := hr
  exact ⟨w, by simpa using hw, rfl⟩

/-- What waits at the entries of a table of jumps waits before all of them. -/
theorem waitingAt_table (h : Readable code) (hlayout : code.map Instr.role = layout.roles) {k : Nat}
    (hjumps : ∀ j < k, ∃ v, (code.map Instr.encode).toArray[p + j]? = some v ∧ Word.op v = .jmp) :
    waitingAt layout.roles (p + k) = waitingAt layout.roles p := by
  induction k with
  | zero => rfl
  | succ k ih =>
    obtain ⟨v, hv, hop⟩ := hjumps k (by omega)
    have hrole : Word.role v = .jump := by rw [Word.role, hop, Op.role]
    rw [← Nat.add_assoc, waitingAt_succ (h.role_at hlayout hv), hrole, Role.after,
      ih fun j hj => hjumps j (by omega)]

/-- A step of control changes the parameters that wait like reading on does. -/
theorem waitingAt_of_leads (h : Readable code) (hlayout : code.map Instr.role = layout.roles)
    (hw : (code.map Instr.encode).toArray[p]? = some w)
    (hleads : Word.Leads (code.map Instr.encode).toArray p q) :
    waitingAt layout.roles q = (Word.role w).after p (waitingAt layout.roles p) := by
  have hnext := waitingAt_succ (h.role_at hlayout hw)
  generalize hq : (q : Int) = target at hleads
  cases hleads with
  | next _ _ =>
    obtain rfl : q = p + 1 := by omega
    exact hnext
  | skip hw' hskips =>
    obtain rfl : q = p + 1 + 1 := by omega
    cases hw.symm.trans hw'
    -- Over the jump behind a test nothing changes.
    have htest : Word.role w = .test := Op.role_of_skips hskips
    have hjump := layout.testsJump p (htest ▸ h.role_at hlayout hw)
    rw [waitingAt_succ hjump, hnext]
    rfl
  | jump hw' hop =>
    cases hw.symm.trans hw'
    obtain ⟨i, hi, rfl, hdecode, -⟩ := h.word hw
    obtain ⟨a, offset, target, rfl, htarget, -, hwait⟩ := h.level p i hi (hdecode ▸ hop)
    have hfits := h.fits a offset (List.mem_of_getElem? hi)
    rw [Instr.offset_encode hfits] at hq
    obtain rfl : q = target := by omega
    rw [← hlayout, hwait, Word.role, hop]
    rfl
  | @pick _ v k hw' hop hv hk =>
    cases hw.symm.trans hw'
    obtain rfl : q = p + 1 + k := by omega
    obtain ⟨-, v', hv', -, htable⟩ := h.contained.draws p w hw hop
    cases hv.symm.trans hv'
    rw [h.waitingAt_table hlayout fun j hj => htable j (by omega), hnext]

/-- On every way the same parameters wait as when the code is read from its start. -/
theorem comes (h : Readable code) (hlayout : code.map Instr.role = layout.roles)
    (hcomes : Word.Comes (code.map Instr.encode).toArray p waiting) :
    waiting = waitingAt layout.roles p := by
  induction hcomes with
  | start => rfl
  | step _ hw hleads ih => rw [h.waitingAt_of_leads hlayout hw hleads, ih]

theorem balanced (h : Readable code) (hlayout : code.map Instr.role = layout.roles) :
    Word.Balanced (code.map Instr.encode).toArray layout where
  roles_eq := h.roles_eq hlayout
  calls p w count hw hrole :=
    layout.exists_site 0 ⟨p, (Nat.zero_add p).symm, hrole ▸ h.role_at hlayout hw⟩
  sites site hsite := by
    obtain ⟨⟨outer, before, after, hroles, hpos, hwait⟩, hpassed⟩ := layout.fed 0 [] site hsite
    rw [Nat.zero_add] at hpos
    rw [hpos]
    refine ⟨h.word_at hlayout (by simp [hroles]), fun p hp => ?_, fun waiting hcomes => ?_⟩
    · obtain ⟨k, hk, hr⟩ := hpassed p hp
      obtain rfl : p = k := by omega
      exact h.word_at hlayout hr
    · rw [h.comes hlayout hcomes, hroles, waitingAt_length, hwait]
      exact ⟨outer, List.nil_append _⟩
  boundaries p hp waiting hcomes := by
    obtain ⟨before, after, hroles, hpos, hwait⟩ := layout.idle_of_mem 0 [] p hp
    obtain rfl : before.length = p := by omega
    rw [h.comes hlayout hcomes, hroles, waitingAt_length, hwait]

end Readable

/-! ## Compiled functions -/

theorem Draft.Balanced.words {d : Draft} {layout : Layout} (h : d.Balanced layout)
    (hstops : Stops [] d.code) (hfinish : d.assembler.finish = .ok chunk) :
    Word.Balanced chunk.code layout := by
  rw [Draft.code_of_finish hfinish]
  exact (hstops.readable h.level).balanced h.roles_eq

/-- The calls of a compiled function or damage expression take the parameters that were passed for
them, so long as the parameters of every call can be counted in sixteen bits. -/
theorem compiled_calls_balanced (w : World) (o : Options) :
    (∀ params text body compiled, parseBody text = .ok body →
      compileFunction w o params body = .ok compiled →
      ∃ body' s, settleFunction w o params body = .ok (body', s) ∧
        (Counted body'.counts →
          ∃ layout, Pieces [body'] [] layout ∧ Word.Balanced compiled.chunk.code layout)) ∧
    ∀ text e compiled, parseExpression text = .ok e → compileDamage w o e = .ok compiled →
      ∃ value s, settleFor w o true {} (settleDamage e) = .ok (value, s) ∧
        (Counted value.counts →
          ∃ layout, Pieces [] [value] layout ∧ Word.Balanced compiled.chunk.code layout) := by
  constructor
  · intro params text body compiled hparse hcompile
    obtain ⟨body', s, hsettle, hfinish⟩ := compileFunction_ok hcompile
    refine ⟨body', s, hsettle, fun hcount => ?_⟩
    have hbody := settleFunction_accepted (parseBody_written hparse) hsettle
    have hparams := fun p hp => hbody.paramType (p := p) hp
    have hstops := draftFunction_stops hbody.settled rfl rfl hparams hfinish
    obtain ⟨layout, hpieces, hbalanced⟩ := draftFunction_balanced hcount hfinish
    exact ⟨layout, hpieces, hbalanced.words hstops hfinish⟩
  · intro text e compiled hparse hcompile
    obtain ⟨value, s, hsettle, hfinish⟩ := compileDamage_ok hcompile
    refine ⟨value, s, hsettle, fun hcount => ?_⟩
    obtain ⟨hvalue, hbank⟩ := settleDamage_settled (parseExpression_written hparse) hsettle
    have hstops := draftDamage_stops hvalue hbank rfl rfl hfinish
    obtain ⟨layout, hpieces, hbalanced⟩ := draftDamage_balanced hcount hfinish
    exact ⟨layout, hpieces, hbalanced.words hstops hfinish⟩

/-- The parameters in a text that settles can be counted. -/
theorem counted_of_settled {o : Options} {text : String} {body body' : Stmt}
    (hparse : parseBody text = .ok body) (hsettle : settleFunction w o [] body = .ok (body', s))
    (h : ((parseBody text).toOption.bind fun body => (settleFunction w o [] body).toOption).all
      (fun settled => decide (Counted settled.1.counts)) = true) : Counted body'.counts := by
  rw [hparse] at h
  simpa [Except.toOption, hsettle] using h

/-- Calls among the arguments of calls, in a condition, in a choice at random and behind a label. -/
theorem compiled_calls_balanced_nested :
    ∃ body compiled body' s layout,
      parseBody ("int x = random(random(1, 2), 5); state at = \"A.B\";" ++
        "if (x > 3 && random2(x ? 7 : 3) == 0) x = randompick(x, random(0, 9));" ++
        "return random(0, x);") = .ok body ∧
      compileFunction {} { cls := some 0 } [] body = .ok compiled ∧
      settleFunction {} { cls := some 0 } [] body = .ok (body', s) ∧ Counted body'.counts ∧
      Pieces [body'] [] layout ∧ Word.Balanced compiled.chunk.code layout := by
  obtain ⟨body, compiled, hparse, hcompile⟩ := exists_compiled {} { cls := some 0 } []
    ("int x = random(random(1, 2), 5); state at = \"A.B\";" ++
      "if (x > 3 && random2(x ? 7 : 3) == 0) x = randompick(x, random(0, 9));" ++
      "return random(0, x);") (by decide +kernel)
  obtain ⟨body', s, hsettle, hbalanced⟩ :=
    (compiled_calls_balanced {} { cls := some 0 }).1 [] _ body compiled hparse hcompile
  have hcount := counted_of_settled hparse hsettle (by decide +kernel)
  obtain ⟨layout, hpieces, hwords⟩ := hbalanced hcount
  exact ⟨body, compiled, body', s, layout, hparse, hcompile, hsettle, hcount, hpieces, hwords⟩

/-! ## Labels with too many names -/

open Typing

def labelText (count : Nat) : List Char :=
  ['.'].intercalate (List.replicate count ['A'])

theorem splitLabel_of_plain {text : List Char} (h : ':' ∉ text) :
    splitLabel text = (none, text) := by
  have hgo (before rest : List Char) (h : ':' ∉ rest) :
      splitLabel.go text before rest = (none, text) := by
    induction rest generalizing before with
    | nil => simp [splitLabel.go]
    | cons c rest ih =>
      rw [splitLabel.go]
      · exact ih _ fun hc => h (by simp [hc])
      · rintro _ rfl
        simp at h
  exact hgo [] text h

theorem colon_notMem_labelText (count : Nat) : ':' ∉ labelText count := by
  induction count with
  | zero => simp [labelText]
  | succ n ih =>
    rw [labelText, List.replicate_succ]
    cases n with
    | zero => simp
    | succ n =>
      rw [List.intercalate_cons_of_ne_nil (by simp)]
      simpa [labelText] using ih

theorem labelNames_labelText (h : 0 < count) :
    labelNames (labelText count) = List.replicate count "A" := by
  have hsplit : (labelText count).splitOn '.' = List.replicate count ['A'] :=
    List.splitOn_intercalate '.' (by simp +contextual [List.mem_replicate]) (by simp; omega)
  have hname : Text.trimChars ['A'] = ['A'] := by decide
  change (((labelText count).splitOn '.').map Text.trimChars).filterMap _ = _
  rw [hsplit, List.map_replicate, hname, List.filterMap_replicate]
  rfl

def labelBody (text : String) : Stmt :=
  .expr Span.zero
    (.explicitCast { span := Span.zero } (.ofConstant Span.zero (.string text)) "state")

theorem settle_labelBody (h : 0 < count) :
    settleFunction {} { cls := some 0 } [] (labelBody (String.ofList (labelText count))) =
      .ok (.expr Span.zero (.stateLabel (Expr.settled Span.zero .state)
        (String.ofList (labelText count)) (List.replicate count "A") false), {}) := by
  let σ := Setting.ofOptions {} { cls := some 0 } true
  have hlabel : (labelled Span.zero (String.ofList (labelText count))).runFrom σ {} =
      (.ok (.stateLabel (Expr.settled Span.zero .state) (String.ofList (labelText count))
        (List.replicate count "A") false), {}) := by
    have hne : (List.replicate count "A").isEmpty = false := by simp; omega
    simp [labelled, runFrom_bind, σ, Setting.ofOptions,
      splitLabel_of_plain (colon_notMem_labelText count),
      labelNames_labelText h, stateFor, hne]
  have hcast : (Expr.explicitCast { span := Span.zero }
      (.ofConstant Span.zero (.string (String.ofList (labelText count))))
      "state").settle.runFrom σ {} =
      (labelled Span.zero (String.ofList (labelText count))).runFrom σ {} := rfl
  have hsettle : (labelBody (String.ofList (labelText count))).settle.runFrom σ {} =
      (.ok (.expr Span.zero (.stateLabel (Expr.settled Span.zero .state)
        (String.ofList (labelText count)) (List.replicate count "A") false)), {}) := by
    rw [labelBody, Stmt.settle, runFrom_bind, hcast, hlabel]
    rfl
  have hscope : (Scope.ofParams []).2 = {} := rfl
  rw [settleFunction, settleFor, hscope, hsettle]
  rfl

section Code

variable {t : Target} {d : Draft}

theorem run_nameIndex {s : Assembler} (h : s.names = #[] ∨ s.names = #["A"]) :
    (Assembly.nameIndex "A").run s = (0, { s with names := #["A"] }) := by
  have hsame : Text.sameName "A" "A" = true := by decide
  obtain ⟨_, _, _, _, _, _, names, _, _, _⟩ := s
  rcases h with rfl | rfl <;>
    simp [Assembly.nameIndex, modifyGet, MonadStateOf.modifyGet, StateT.run, StateT.modifyGet,
      hsame] <;>
    rfl

theorem yields_nameParam (h : d.assembler.names = #[] ∨ d.assembler.names = #["A"]) :
    Yields t (do paramInt (Int32.ofNat (← Assembly.nameIndex "A"))) d ()
      ((d.withNames #["A"]).push (.asbx .parami (.imm 0) 0)) := by
  refine yields_bind.2 ⟨0, d.withNames #["A"], ?_, ?_⟩
  · exact (yields_modify_assembler (run_nameIndex h) rfl).2 ⟨rfl, rfl⟩
  · have hfits : fitsOffset (Int32.ofNat 0).toInt = true := by decide
    rw [paramInt, if_pos hfits]
    exact yields_emitSigned.2 ⟨⟨by decide, by decide⟩, rfl⟩

theorem nameParams_cons (name : String) (rest : List String) :
    nameParams (name :: rest) = (do
      (do paramInt (Int32.ofNat (← Assembly.nameIndex name)))
      nameParams rest) :=
  rfl

theorem yields_nameParams (n : Nat) (h : d.assembler.names = #[] ∨ d.assembler.names = #["A"]) :
    Yields t (nameParams (List.replicate (n + 1) "A")) d ⟨⟩
      ((d.withNames #["A"]).pushAll (List.replicate (n + 1) (.asbx .parami (.imm 0) 0))) := by
  induction n generalizing d with
  | zero =>
    rw [List.replicate_succ, nameParams_cons]
    exact yields_bind.2 ⟨_, _, yields_nameParam h, yields_pure.2 ⟨rfl, rfl⟩⟩
  | succ n ih =>
    rw [List.replicate_succ, nameParams_cons]
    exact yields_bind.2 ⟨_, _, yields_nameParam h, ih (d := (d.withNames #["A"]).push _) (.inr rfl)⟩

/-- The code of a label with so many names that none of them is counted. -/
def labelCode (count : Nat) : List Instr :=
  .abx .param (.imm 7) (.pool Bank.pointer 0) :: List.replicate count (.asbx .parami (.imm 0) 0) ++
    [.abc .callK (.pool Bank.pointer 1) (.imm 1) (.imm 1),
      .abx .result (.imm 3) (.reg Bank.pointer 0)]

theorem yields_label (hwrap : (n + 1) % 65536 = 0) (hnames : d.assembler.names = #[])
    (hpools : d.pools = ⟨.empty, .empty, .empty, .empty⟩) (hregs : d.assembler.pools = .replicate {}) :
    ∃ d', Yields ⟨w, .static⟩ (stateLabel (List.replicate (n + 1) "A") false) d
        { number := 0, bank? := some .pointer } d' ∧
      d'.code = d.code ++ labelCode (n + 1) ∧
      d'.assembler.pools = (Banks.replicate {}).set .pointer (({} : RegisterPool).take 0 1) := by
  let d1 := (d.store (.address .null)).push (.abx .param (.imm 7) (.pool Bank.pointer 0))
  let d2 := (d1.withNames #["A"]).pushAll (List.replicate (n + 1) (.asbx .parami (.imm 0) 0))
  let d3 := (d2.store (.address (.native .findMultiNameState))).push
    (.abc .callK (.pool Bank.pointer 1) (.imm 1) (.imm 1))
  let d4 := (d3.take .pointer 0).push (.abx .result (.imm 3) (.reg Bank.pointer 0))
  have hnull : d.indexOf (.address .null) = 0 := by
    rw [Draft.indexOf, hpools]
    decide +kernel
  have hservice : d2.indexOf (.address (.native .findMultiNameState)) = 1 := by
    have hpools2 : d2.pools = (d.pools.intern (.address .null)).2 := by
      simp only [d2, d1, Draft.pools_pushAll]
      rfl
    rw [Draft.indexOf, hpools2, hpools]
    decide +kernel
  have hregs3 : d3.assembler.pools = .replicate {} := by
    rw [← hregs]
    simp only [d3, d2]
    change (Draft.pushAll _ _).assembler.pools = _
    rw [Draft.pushAll_eq]
    rfl
  have howner : Yields ⟨w, .static⟩ (do param (← stateOwner)) d () d1 := by
    refine yields_bind.2 ⟨.constant Bank.pointer 0, d.store (.address .null),
      yields_read_bind.2 (yields_read_bind.2 (yields_pooledAddress.2 ⟨by rw [hnull], rfl⟩)), ?_⟩
    exact yields_bind.2 ⟨⟨⟩, d1, yields_emitWide.2 ⟨by decide, rfl⟩,
      yields_free.2 ⟨by simp [Draft.Holds, Place.constant, Place.isOwned], rfl⟩⟩
  have hparams : Yields ⟨w, .static⟩ (nameParams (List.replicate (n + 1) "A")) d1 ⟨⟩ d2 :=
    yields_nameParams n (.inl hnames)
  have hcount : (n + 1 + 1) % 65536 = 1 := by omega
  have hcall : Yields ⟨w, .static⟩ (callService .findMultiNameState (n + 1 + 1) .pointer false) d2
      { number := 0, bank? := some .pointer } d4 := by
    rw [callService, call, hcount]
    refine yields_bind.2 ⟨.constant Bank.pointer 1,
      d2.store (.address (.native .findMultiNameState)),
      yields_pooledAddress.2 ⟨by rw [hservice], rfl⟩, ?_⟩
    refine yields_bind.2 ⟨⟨⟩, d3, yields_emit.2 ⟨by decide, rfl⟩, ?_⟩
    refine yields_bind.2 ⟨_, d3.take .pointer 0,
      yields_alloc.2 ⟨.pointer, 0, rfl, ⟨({} : RegisterPool).take 0 1, ?_⟩, rfl, rfl⟩, ?_⟩
    · rw [hregs3]
      rfl
    · exact yields_bind.2 ⟨⟨⟩, d4, yields_emitWide.2 ⟨by decide, rfl⟩, yields_pure.2 ⟨rfl, rfl⟩⟩
  have hlength : (List.replicate (n + 1) "A").length ≠ 1 := by simp; omega
  refine ⟨d4, ?_, ?_, ?_⟩
  · unfold stateLabel
    rw [if_neg hlength, List.length_replicate]
    obtain ⟨p, d0, howner, hparam⟩ := yields_bind.1 howner
    exact yields_bind.2 ⟨p, d0, howner,
      yields_bind.2 ⟨_, d1, hparam, yields_bind.2 ⟨_, d2, hparams, hcall⟩⟩⟩
  · simp [d4, d3, d2, d1, labelCode]
  · change d3.assembler.pools.set .pointer ((d3.assembler.pools.get .pointer).take 0 1) = _
    rw [hregs3]
    rfl

end Code

theorem exists_chunk_of_yields {o : Options} {locals : Nat} {d : Draft}
    (h : Yields ⟨w, o.kind⟩ x (Draft.start o.name o.kind locals) () d) :
    (lowerFor w o locals x).2 = d ∧ ∃ chunk, d.assembler.finish = .ok chunk := by
  have hfaults : d.assembler.faults = #[] := by
    have hnone := h.faultless
    rw [Draft.start_eq, Draft.faults] at hnone
    simpa [Draft.faults, Assembler.reserving] using hnone
  refine ⟨congrArg Prod.snd h.run, ?_⟩
  rw [Assembler.finish, hfaults]
  exact ⟨_, rfl⟩

theorem draft_labelBody (hwrap : (n + 1) % 65536 = 0) (m : Mark) (text : String) :
    ∃ chunk, (draftFunction {} { cls := some 0 } []
        (.expr Span.zero (.stateLabel m text (List.replicate (n + 1) "A") false))
        {}).assembler.finish = .ok chunk ∧
      chunk.code = ((labelCode (n + 1) ++
        [Instr.abc .ret (.imm finalReturn) (.imm Place.nil.tag) (.imm 0)]).map
          Instr.encode).toArray := by
  let start := Draft.start "Anonymous" .static 0
  have hstart : start = { assembler := .reserving "Anonymous" {}, homes := #[] } :=
    Draft.start_eq _ _ _
  obtain ⟨d1, hlabel, hcode, hregs⟩ := yields_label (d := start) hwrap (w := {})
    (by rw [hstart]; rfl) (by rw [hstart]; rfl) (by rw [hstart]; rfl)
  let place : Place := { number := 0, bank? := some .pointer }
  let d2 := (d1.drop place).push (.abc .ret (.imm finalReturn) (.imm Place.nil.tag) (.imm 0))
  have hfree : Yields ⟨{}, .static⟩ (liftM place.free) d1 () (d1.drop place) := by
    refine yields_free.2 ⟨fun _ b hb => ?_, rfl⟩
    cases hb
    rw [hregs]
    decide
  have hlower : Yields ⟨{}, .static⟩ (Stmt.lower (.expr Span.zero
      (.stateLabel m text (List.replicate (n + 1) "A") false))) start () (d1.drop place) := by
    rw [Stmt.lower, Expr.lower]
    exact yields_bind.2 ⟨_, d1, hlabel, hfree⟩
  have hreturn : Yields ⟨{}, .static⟩ returnNothing (d1.drop place) () d2 :=
    yields_emit.2 ⟨by decide, rfl⟩
  have hset : Yields ⟨{}, .static⟩ (liftM (Assembly.setReturns [])) d2 ()
      { d2 with assembler := { d2.assembler with returns := [] } } :=
    yields_lift.2 ⟨_, (Assembly.does_modify rfl).2 rfl, rfl⟩
  have hrun : Yields ⟨{}, .static⟩ (do
      bindParams []
      Stmt.lower (.expr Span.zero (.stateLabel m text (List.replicate (n + 1) "A") false))
      returnNothing
      Assembly.setReturns []) start ()
      { d2 with assembler := { d2.assembler with returns := [] } } :=
    yields_bind.2 ⟨⟨⟩, start, yields_pure.2 ⟨rfl, rfl⟩,
      yields_bind.2 ⟨_, _, hlower, yields_bind.2 ⟨_, _, hreturn, hset⟩⟩⟩
  obtain ⟨hdraft, chunk, hfinish⟩ := exists_chunk_of_yields (o := { cls := some 0 }) hrun
  refine ⟨chunk, ?_, ?_⟩
  · rw [← hfinish, ← hdraft]
    rfl
  · have hall : d2.code = labelCode (n + 1) ++
        [.abc .ret (.imm finalReturn) (.imm Place.nil.tag) (.imm 0)] := by
      simp only [d2, Draft.code_push, Draft.code_drop, hcode, hstart]
      rfl
    rw [Draft.code_of_finish hfinish, ← hall]
    rfl

/-- Control goes on through instructions that have no other way to take. -/
theorem comes_of_goesOn {p : Nat} (hp : p ≤ code.length)
    (h : ∀ i ∈ code.take p, (∀ n, i.op ≠ .unassigned n) ∧ Word.goesOn i.encode = true) :
    Word.Comes (code.map Instr.encode).toArray p (waitingAt (code.map Instr.role) p) := by
  induction p with
  | zero => exact .start
  | succ p ih =>
    have hmem : code[p] ∈ code.take (p + 1) := by
      rw [List.take_succ_eq_append_getElem (by omega), List.mem_append]
      exact .inr (List.mem_singleton_self _)
    obtain ⟨hassigned, hgoes⟩ := h _ hmem
    have hword : (code.map Instr.encode).toArray[p]? = some code[p].encode := by
      simp [List.getElem?_eq_getElem (show p < code.length by omega)]
    have hrole : (code.map Instr.role)[p]? = some (Word.role code[p].encode) := by
      rw [Instr.role_encode hassigned, List.getElem?_map, List.getElem?_eq_getElem (by omega)]
      rfl
    rw [waitingAt_succ hrole]
    refine .step (ih (by omega) fun i hi => h i ?_) hword (.next hword hgoes)
    exact List.take_subset_take_left code (by omega) hi

theorem length_waitingAfter_pass (k position : Nat) (waiting : List Nat) :
    (waitingAfter position waiting (List.replicate k .pass)).length = waiting.length + k := by
  induction k generalizing position waiting with
  | zero => rfl
  | succ k ih =>
    rw [List.replicate_succ, waitingAfter, ih, Role.after, List.length_append,
      List.length_singleton]
    omega

theorem length_waitingAt_label (count : Nat) (last : Instr) :
    (waitingAt ((labelCode count ++ [last]).map Instr.role) (count + 3)).length = count := by
  have hroles : (labelCode count ++ [last]).map Instr.role =
      (.pass :: List.replicate count .pass ++ [.call 1, .plain]) ++ [last.role] := by
    simp [labelCode, Instr.role, Instr.op, Op.role, Instr.low, Operand.value]
  rw [hroles, waitingAt, List.take_left' (by simp), waitingAfter_append, ← List.replicate_succ]
  simp only [waitingAfter, Role.after, List.length_take, length_waitingAfter_pass]
  simp

theorem goesOn_labelCode {i : Instr} (h : i ∈ labelCode count) :
    (∀ n, i.op ≠ .unassigned n) ∧ Word.goesOn i.encode = true := by
  have hcases : i = .abx .param (.imm 7) (.pool Bank.pointer 0) ∨ i = .asbx .parami (.imm 0) 0 ∨
      i = .abc .callK (.pool Bank.pointer 1) (.imm 1) (.imm 1) ∨
      i = .abx .result (.imm 3) (.reg Bank.pointer 0) := by
    simp only [labelCode, List.cons_append, List.mem_cons, List.mem_append, List.mem_replicate,
      List.not_mem_nil] at h
    tauto
  rcases hcases with rfl | rfl | rfl | rfl <;> exact ⟨by simp [Instr.op], by decide⟩

/-- Of the names of a label only as many are taken as their number tells in sixteen bits. The
others are left when the function returns. -/
theorem label_leaves_parameters (hwrap : (n + 1) % 65536 = 0) :
    ∃ compiled p w waiting, compileFunction {} { cls := some 0 } []
        (labelBody (String.ofList (labelText (n + 1)))) = .ok compiled ∧
      compiled.chunk.code[p]? = some w ∧ Word.op w = .ret ∧
      Word.Comes compiled.chunk.code p waiting ∧ waiting.length = n + 1 := by
  let last : Instr := .abc .ret (.imm finalReturn) (.imm Place.nil.tag) (.imm 0)
  obtain ⟨chunk, hfinish, hcode⟩ := draft_labelBody hwrap
    (Expr.settled Span.zero .state) (String.ofList (labelText (n + 1)))
  have hlen : (labelCode (n + 1)).length = n + 1 + 3 := by simp [labelCode]
  refine ⟨⟨chunk, [], []⟩, n + 1 + 3, last.encode,
    waitingAt ((labelCode (n + 1) ++ [last]).map Instr.role) (n + 1 + 3), ?_, ?_,
    Instr.op_encode (by simp [last, Instr.op]), ?_, length_waitingAt_label _ _⟩
  · unfold compileFunction
    rw [settle_labelBody (by omega)]
    change finishFor _ _ _ _ = _
    rw [finishFor, hfinish]
    rfl
  · rw [hcode, List.getElem?_toArray, List.getElem?_map, ← hlen, List.getElem?_concat_length]
    rfl
  · rw [hcode]
    refine comes_of_goesOn (by simp [hlen]) fun i hi => ?_
    rw [List.take_left' hlen] at hi
    exact goesOn_labelCode hi

/-- A label with too many names. -/
theorem return_leaves_parameters :
    ∃ body compiled p w waiting, compileFunction {} { cls := some 0 } [] body = .ok compiled ∧
      compiled.chunk.code[p]? = some w ∧ Word.op w = .ret ∧
      Word.Comes compiled.chunk.code p waiting ∧ waiting.length = 65536 :=
  ⟨_, label_leaves_parameters (n := 65535) rfl⟩

end ActorScript
