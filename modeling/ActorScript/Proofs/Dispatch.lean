import ActorScript.Proofs.Lowering.Functions
import ActorScript.Proofs.Lowering.Nesting
import ActorScript.Proofs.Typing.Functions

/-! # The dispatch of a random choice

A number is drawn and the code jumps by it into a table. The entry at each number leads to the
code of the choice at that position, however long the choices are, and from there control comes to
the end of the whole, on the way writing the value of the choice to the one register that the
result is in.
-/

namespace ActorScript

open Lowering

variable {code : List Instr} {p : Place} {f : Footprint} {finishes : List Nat}

/-! ## Ways that arrive -/

def JumpsTo (code : List Instr) (p q : Nat) : Prop :=
  ∃ offset : Int, code[p]? = some (.asbx .jmp (.imm 0) offset) ∧ (q : Int) = p + 1 + offset

/-- Whatever way control takes from a position, it comes to another. It is held up only where a
number is drawn from none. -/
inductive Arrives (code : List Instr) (goal : Nat) : Nat → Prop
  | here : Arrives code goal goal
  | on {p q : Nat} : Leads code p q → (∀ q, Leads code p q → Arrives code goal q) →
      Arrives code goal p
  | none {q n : Nat} : Picks code q 0 n → Arrives code goal (q + 4)

section Arrives

variable {code : List Instr} {p q goal : Nat}

theorem JumpsTo.arrives (h : JumpsTo code p q) : Arrives code q p := by
  obtain ⟨offset, hp, hq⟩ := h
  refine .on (.jump hp hq) fun q' hleads => ?_
  have := hleads.of_jump hp
  obtain rfl : q' = q := by omega
  exact .here

theorem Arrives.next {i : Instr} (hi : code[p]? = some i) (hplain : i.op.proceeds 0 = true)
    (h : Arrives code goal (p + 1)) : Arrives code goal p := by
  have hjmp : i.op ≠ .jmp := by
    rintro heq
    simp [heq, Op.proceeds] at hplain
  have hijmp : i.op ≠ .ijmp := by
    rintro heq
    simp [heq, Op.proceeds] at hplain
  refine .on (.next hi hjmp hijmp) fun q hleads => ?_
  cases hleads with
  | next => exact h
  | skip hi' hskips =>
    cases hi.symm.trans hi'
    cases hop : i.op <;> simp_all [Op.proceeds, Op.skips]
  | jump hi' =>
    cases hi.symm.trans hi'
    exact absurd rfl hjmp
  | pick hpicks =>
    cases hi.symm.trans hpicks.pick
    exact absurd rfl hijmp

/-- No way leads back where no jump does. -/
theorem Leads.lt_of_ahead (h : Leads code p q) (ha : ∀ i, code[p]? = some i → i.Ahead) : p < q := by
  cases h with
  | next | skip | pick => omega
  | jump hi hq =>
    have := ha _ hi _ _ rfl
    omega

/-- Closed code without jumps backwards is left at its end. -/
theorem Closed.arrives {seg : List Instr} (hc : Closed seg) (pre post : List Instr)
    (hahead : ∀ i ∈ seg, i.Ahead) {k : Nat} (hk : k ≤ seg.length) :
    Arrives (pre ++ seg ++ post) (pre.length + seg.length) (pre.length + k) := by
  induction hrest : seg.length - k using Nat.strong_induction_on generalizing k with
  | h rest ih =>
    rcases Nat.lt_or_eq_of_le hk with hlt | rfl
    · have hi : seg[k]? = some seg[k] := List.getElem?_eq_getElem hlt
      have hat : (pre ++ seg ++ post)[pre.length + k]? = some seg[k] := by
        rw [getElem?_segment hlt, hi]
      have hall (q : Nat) (hleads : Leads (pre ++ seg ++ post) (pre.length + k) q) :
          Arrives (pre ++ seg ++ post) (pre.length + seg.length) q := by
        obtain ⟨⟨hlow, hhigh⟩, -⟩ := hc.leads hleads (by omega) (by omega)
        have hforth := hleads.lt_of_ahead fun i hi' => by
          cases hat.symm.trans hi'
          exact hahead _ (List.getElem_mem hlt)
        obtain ⟨k', rfl⟩ := Nat.exists_eq_add_of_le hlow
        exact ih (seg.length - k') (by omega) (by omega) rfl
      have hlands := hc k _ hi
      by_cases hjmp : seg[k].op = .jmp
      · obtain ⟨offset, heq, -, hlow, hhigh⟩ := hlands.jump hjmp
        rw [heq] at hat
        exact .on (.jump (q := ((pre.length + k : Nat) + 1 + offset).toNat) hat (by omega)) hall
      by_cases hijmp : seg[k].op = .ijmp
      · obtain ⟨q, count, n, rfl, hpicks⟩ := hlands.pick hijmp
        have hthere : Picks (pre ++ seg ++ post) (pre.length + q) count n :=
          Picks.mono (List.prefix_append _ _) (Picks.behind hpicks)
        cases count with
        | zero => exact .none hthere
        | succ count => exact .on (.pick hthere (Nat.succ_pos count)) hall
      · exact .on (.next hat hjmp hijmp) hall
    · exact .here

end Arrives

/-! ## The code of one choice -/

/-- Between two positions stands what some lowering wrote in the surroundings of a draft. -/
structure Wrote (t : Target) (outer : Draft) (x : Lowering Place) (code : List Instr)
    (start stop : Nat) (value : Place) : Prop where
  run : ∃ d d', Yields t x d value d' ∧ d.surroundings = outer.surroundings ∧
    d.code.length = start ∧ d'.code.length = stop ∧
    ∀ p, start ≤ p → p < stop → code[p]? = d'.code[p]?

/-- The code of a choice: its value is found, whatever way control takes, and then copied. -/
structure Arm (t : Target) (outer : Draft) (out : Place) (x : Lowering Place) (code : List Instr)
    (start stop : Nat) : Prop where
  copies : ∃ value, Wrote t outer x code start stop value ∧
    code[stop]? = some (copyOf out.bank? out value)
  passes : Arrives code stop start

theorem Arm.within {t : Target} {outer outer' : Draft} {out : Place} {x : Lowering Place}
    {start stop : Nat} (h : Arm t outer out x code start stop)
    (hsame : outer.surroundings = outer'.surroundings) : Arm t outer' out x code start stop := by
  obtain ⟨⟨value, ⟨d, d', hy, hd, hrest⟩, hcopy⟩, hpasses⟩ := h
  exact ⟨⟨value, ⟨d, d', hy, hd.trans hsame, hrest⟩, hcopy⟩, hpasses⟩

section Lists

variable {α : Type}

theorem eq_segment (xs pre seg : List α) (hlen : pre.length + seg.length ≤ xs.length)
    (h : ∀ p, pre.length ≤ p → p < pre.length + seg.length → xs[p]? = (pre ++ seg)[p]?) :
    xs = xs.take pre.length ++ seg ++ xs.drop (pre.length + seg.length) := by
  have htake : (xs.take pre.length).length = pre.length := by
    rw [List.length_take]
    omega
  apply List.ext_getElem?
  intro p
  by_cases hlow : p < pre.length
  · rw [List.append_assoc, List.getElem?_append_left (by omega), List.getElem?_take_of_lt hlow]
  by_cases hhigh : p < pre.length + seg.length
  · rw [h p (by omega) hhigh, List.append_assoc, List.getElem?_append_right (by omega),
      List.getElem?_append_right (by omega), List.getElem?_append_left (by omega), htake]
  · rw [List.getElem?_append_right (by rw [List.length_append]; omega), List.getElem?_drop,
      List.length_append, htake]
    congr 1
    omega

end Lists

section Choice

variable {t : Target} {c : Context} {b : Bank} {n : Nat} {args : List Expr}
  {d d1 d2 d' : Draft} {code : List Instr}

/-- Code that leads onward was written without jumps backwards. -/
theorem Yields.ahead {e : Expr} (h : Yields t e.lower d p d') (hcode : d.code <+: d'.code) :
    ∀ i ∈ d.since d', i.Ahead := by
  have honward := (e.lower_nests d.assigned 0).onward t d ⟨rfl, Nat.zero_le _⟩
  rw [h.run] at honward
  have hfrom := honward.ahead d.code.length fun p i hp hi => by
    have := (Array.getElem?_eq_some_iff.1 hi).1
    simp only [Draft.code, Array.length_toList] at hp
    omega
  intro i hi
  obtain ⟨k, hk⟩ := List.mem_iff_getElem?.1 hi
  refine hfrom (d.code.length + k) i (by omega) ?_
  rw [← Array.getElem?_toList]
  change d'.code[d.code.length + k]? = some i
  rw [Draft.code_eq_since hcode]
  exact getElem?_behind hk

/-- Whoever enters the code of a value comes to its end. -/
theorem Leaves.arrives {e : Expr} (h : Leaves f d p d') (hy : Yields t e.lower d p d')
    (hlen : d'.code.length ≤ code.length)
    (hcode : ∀ p, d.code.length ≤ p → p < d'.code.length → code[p]? = d'.code[p]?) :
    Arrives code d'.code.length d.code.length := by
  have hall := Draft.code_eq_since h.code
  have hlength : d'.code.length = d.code.length + (d.since d').length := by
    rw [hall, List.length_append]
  have hcode' := eq_segment code d.code (d.since d') (by omega)
    fun p hlow hhigh => by
      rw [← hall]
      exact hcode p hlow (by omega)
  have htake : (code.take d.code.length).length = d.code.length := by
    rw [List.length_take]
    omega
  rw [hcode', hlength]
  have := h.closed.arrives (code.take d.code.length)
    (code.drop (d.code.length + (d.since d').length)) (hy.ahead h.code) (Nat.zero_le _)
  rwa [htake, Nat.add_zero] at this

theorem op_proceeds_copyOf (bank? : Option Bank) (target source : Place) :
    (copyOf bank? target source).op.proceeds 0 = true := by
  unfold copyOf
  split <;> rfl

theorem Sound.retarget (h : Sound c d) (source target : Nat) : Sound c (d.retarget source target) :=
  h.mono rfl fun _ hr => hr

/-- A register that is not in use is written, and what the value was in is given up. -/
theorem Leaves.copied (h : Leaves f d p d') (bank? : Option Bank) {out : Place}
    (hout : out.isConstant = false) :
    (Work d ∅ (f.effect ++ ⟨false, [], !(copyOf bank? out p).fits⟩)
      ((d'.push (copyOf bank? out p)).drop p)) := by
  have hpushed := h.toWork.push (k := false) (w := []) (i := copyOf bank? out p)
    (within_copyOf hout h.operand_within) (by simp) (by simp) (by simp [proceeds_copyOf])
  exact (hpushed.drop h.fresh).cast (by ext; simp) id rfl rfl

/-- The code of a choice stands in all code that agrees with what was written, at the entry of the
choice and from its start to its copy. -/
theorem arm_of_choice (code : List Instr) {x : Expr} {value : Place} {entry : Nat}
    (hl : Leaves f (d.retarget entry d.code.length) value d2)
    (hx : Yields t x.lower (d.retarget entry d.code.length) value d2) (hentry : d.JumpAt entry)
    (hlen : d2.code.length < code.length)
    (hcode : ∀ p ≤ d2.code.length, p = entry ∨ d.code.length ≤ p →
      code[p]? = (d2.push (copyOf (some b) (.fresh b n) value)).code[p]?) :
    JumpsTo code entry d.code.length ∧
      Arm t d (.fresh b n) x.lower code d.code.length d2.code.length := by
  have hstart : (d.retarget entry d.code.length).code.length = d.code.length := by
    rw [Draft.code_retarget, List.length_modify]
  have hle := hl.code.length_le
  have hbefore (p : Nat) (hp : p < d2.code.length) (hout : p = entry ∨ d.code.length ≤ p) :
      code[p]? = d2.code[p]? := by
    rw [hcode p hp.le hout, Draft.code_push, List.getElem?_append_left hp]
  constructor
  · have hlt := hentry.lt
    obtain ⟨offset, hjump⟩ := hentry
    refine ⟨Assembly.jumpOffset entry d.code.length, ?_, by unfold Assembly.jumpOffset; omega⟩
    rw [hbefore entry (by omega) (.inl rfl)]
    apply getElem?_of_extends hl.code
    rw [Draft.code_retarget, List.getElem?_modify, hjump]
    simp [Instr.withOffset, Instr.op, Instr.first]
  · have hinside (p : Nat) (hlow : d.code.length ≤ p) (hp : p < d2.code.length) :=
      hbefore p hp (.inr hlow)
    refine ⟨⟨value, ⟨_, d2, hx, rfl, hstart, rfl, hinside⟩, ?_⟩, ?_⟩
    · rw [hcode _ le_rfl (.inr (by omega))]
      simp
    · rw [← hstart]
      exact hl.arrives hx hlen.le (by rwa [hstart])

/-- Where the choices stand. Each entry of the table leads to the code of its choice, and behind it
stands a jump that waits, but for the last. -/
structure ChoicesLaid (t : Target) (out : Place) (args : List Expr) (entries finishes : List Nat)
    (d d' : Draft) : Prop where
  grows : d.code.length ≤ d'.code.length
  surroundings : d'.surroundings = d.surroundings
  pools : Pools.Grow d.pools d'.pools
  waits : ∀ k ∈ finishes, d.code.length ≤ k ∧ d'.JumpAt k
  keeps : ∀ p < d.code.length, p ∉ entries → d'.code[p]? = d.code[p]?
  arms : ∀ code : List Instr, code.length = d'.code.length →
    (∀ p, p ∉ finishes → p ∈ entries ∨ d.code.length ≤ p → code[p]? = d'.code[p]?) →
    ∀ (i : Nat) (x : Expr), args[i]? = some x →
      ∃ entry start stop, entries[i]? = some entry ∧ JumpsTo code entry start ∧
        Arm t d out x.lower code start stop ∧
        (stop + 1 = d'.code.length ∨ stop + 1 ∈ finishes)

theorem choices_laid (h : ∀ e ∈ args, Lowers t c e.lower (e.footprint c)) {entries : List Nat}
    (hlen : entries.length = args.length) (hnodup : entries.Nodup) (hd : Sound c d)
    (hentries : ∀ k ∈ entries, d.JumpAt k)
    (hy : Yields t (choices b (.fresh b n) (entries.zip (lowerAll args))) d
      finishes d') :
    ChoicesLaid t (.fresh b n) args entries finishes d d' := by
  induction args generalizing d entries finishes with
  | nil =>
    rw [lowerAll, List.zip_nil_right, choices, yields_pure] at hy
    obtain ⟨rfl, rfl⟩ := hy
    exact ⟨le_rfl, rfl, .refl _, by simp, fun _ _ _ => rfl, by simp⟩
  | cons x rest ih =>
    obtain ⟨entry, entries, rfl⟩ : ∃ k ks, entries = k :: ks :=
      List.exists_cons_of_length_eq_add_one hlen
    obtain ⟨hnew, hnodup⟩ := List.nodup_cons.1 hnodup
    have hentry := hentries entry (by simp)
    have hothers (k : Nat) (hk : k ∈ entries) : k < d.code.length :=
      (hentries k (by simp [hk])).lt
    simp only [lowerAll, List.zip_cons_cons, choices, yields_steps] at hy
    obtain ⟨-, value, d2, hx, _, _, hcopy, -, hy⟩ := hy
    obtain rfl := yields_assign hcopy
    have hl := h x (by simp) _ value d2 (hd.retarget _ _) hx
    have hw := hl.copied (some b) (show Place.isConstant (.fresh b n) = false from rfl)
    have hbefore (p : Nat) (hp : p < d.code.length) (hne : p ≠ entry) :
        d2.code[p]? = d.code[p]? := by
      obtain ⟨i, hi⟩ : ∃ i, d.code[p]? = some i := ⟨_, List.getElem?_eq_getElem hp⟩
      rw [hi]
      apply getElem?_of_extends hl.code
      rw [Draft.code_retarget, List.getElem?_modify, hi]
      simp [hne.symm]
    have hgrown : d.code.length ≤ d2.code.length := by
      have := hl.code.length_le
      rwa [Draft.code_retarget, List.length_modify] at this
    have hsound := (hd.retarget entry d.code.length).work hw
    have hsame : ((d2.push (copyOf (some b) (.fresh b n) value)).drop
        value).surroundings = d.surroundings := hw.surroundings
    have hcopied : ((d2.push (copyOf (some b) (.fresh b n) value)).drop
        value).code = (d2.push (copyOf (some b) (.fresh b n) value)).code :=
      Draft.code_drop ..
    have hpools := hw.pools
    generalize (d2.push _).drop value = d3 at hy hsound hsame hcopied hpools
    have hlength3 : d3.code.length = d2.code.length + 1 := by simp [hcopied]
    have hbefore3 (p : Nat) (hp : p < d.code.length) (hne : p ≠ entry) :
        d3.code[p]? = d.code[p]? := by
      rw [hcopied, Draft.code_push, List.getElem?_append_left (by omega), hbefore p hp hne]
    split at hy
    next hlast =>
      -- The last choice ends where the code ends.
      obtain ⟨rfl, rfl⟩ := yields_pure.1 hy
      have hrest : rest = [] := by
        cases rest with
        | nil => rfl
        | cons _ _ => simp [lowerAll] at hlast; simp [hlast] at hlen
      subst hrest
      refine ⟨by omega, hsame, hpools, by simp, fun p hp hout => ?_, ?_⟩
      · exact hbefore3 p hp fun heq => hout (by simp [heq])
      · intro code hlength hcode i y hy'
        obtain ⟨rfl, rfl⟩ : i = 0 ∧ y = x := by
          cases i with
          | zero => simpa [eq_comm] using hy'
          | succ i => simp at hy'
        obtain ⟨hjump, harm⟩ := arm_of_choice code hl hx hentry (by omega)
          fun p _ hp => by rw [hcode p (by simp) (hp.imp_left fun heq => by simp [heq]), hcopied]
        exact ⟨entry, _, _, rfl, hjump, harm, .inl hlength3.symm⟩
    next =>
      simp only [yields_steps] at hy
      obtain ⟨finishes, d4, hrest, rfl, rfl⟩ := hy
      have hlaid := ih (fun e he => h e (by simp [he])) (by simpa using hlen) hnodup
        (hsound.mono (by simp) (by simp)) (fun k hk => by
          obtain ⟨offset, hk'⟩ := hentries k (by simp [hk])
          have hne : k ≠ entry := fun heq => hnew (heq ▸ hk)
          exact Draft.jumpAt_push.2 (.inl ⟨offset, by rw [hbefore3 k (hothers k hk) hne, hk']⟩))
        hrest
      have hgrows := hlaid.grows
      rw [Draft.code_push, List.length_append, List.length_singleton] at hgrows
      have hkeeps (p : Nat) (hp : p < d3.code.length) (hout : p ∉ entries) :
          d'.code[p]? = d3.code[p]? := by
        rw [hlaid.keeps p (by simp; omega) hout, Draft.code_push, List.getElem?_append_left hp]
      have hwaits (k : Nat) (hk : k ∈ finishes) : d3.code.length < k := by
        have := (hlaid.waits k hk).1
        rw [Draft.code_push, List.length_append, List.length_singleton] at this
        omega
      refine ⟨by omega, hlaid.surroundings.trans (by simpa using hsame),
        hpools.trans (by simpa using hlaid.pools), ?_, ?_, ?_⟩
      · intro k hk
        rcases List.mem_cons.1 hk with rfl | hk
        · refine ⟨by omega, 0, ?_⟩
          rw [hlaid.keeps _ (by simp) fun hmem => by
            have := hothers _ hmem
            omega]
          simp
        · exact ⟨by have := hwaits k hk; omega, (hlaid.waits k hk).2⟩
      · intro p hp hout
        rw [hkeeps p (by omega) fun hmem => hout (by simp [hmem])]
        exact hbefore3 p hp fun heq => hout (by simp [heq])
      · intro code hlength hcode i y hy'
        cases i with
        | zero =>
          cases hy'
          obtain ⟨hjump, harm⟩ := arm_of_choice code hl hx hentry (by omega)
            fun p hp hat => by
              have hearly : p < d3.code.length := by omega
              have hopen : p ∉ d3.code.length :: finishes := by
                simp only [List.mem_cons, not_or]
                exact ⟨by omega, fun hmem => by have := hwaits p hmem; omega⟩
              have hfree : p ∉ entries := by
                rcases hat with rfl | hlow
                · exact hnew
                · exact fun hmem => by have := hothers p hmem; omega
              rw [hcode p hopen (hat.imp_left fun heq => by simp [heq]), hkeeps p hearly hfree,
                hcopied]
          exact ⟨entry, _, _, rfl, hjump, harm, .inr (by simp [hlength3])⟩
        | succ i =>
          obtain ⟨entry', start, stop, hentry', hjump, harm, hstop⟩ := hlaid.arms code hlength
            (fun p hopen hat => hcode p (by
              simp only [List.mem_cons, not_or]
              refine ⟨fun heq => ?_, hopen⟩
              rcases hat with hmem | hlow
              · have := hothers p hmem
                omega
              · simp at hlow
                omega) (hat.imp (fun hmem => by simp [hmem]) fun hlow => by
                  simp at hlow
                  omega)) i y hy'
          exact ⟨entry', start, stop, hentry', hjump, harm.within (by simpa using hsame),
            hstop.imp_right fun hmem => by simp [hmem]⟩

theorem patchAll_code {u : PUnit} (hjumps : ∀ k ∈ finishes, d.JumpAt k)
    (h : Yields t (finishes.forM fun k => liftM (Assembly.patch k)) d u d') :
    d'.code.length = d.code.length ∧ d'.pools = d.pools ∧
      (∀ p, p ∉ finishes → d'.code[p]? = d.code[p]?) ∧
      ∀ k ∈ finishes, JumpsTo d'.code k d.code.length := by
  induction finishes generalizing d with
  | nil =>
    obtain ⟨-, rfl⟩ := yields_pure.1 h
    exact ⟨rfl, rfl, fun _ _ => rfl, by simp⟩
  | cons k rest ih =>
    obtain ⟨_, d1, hfirst, hrest⟩ := yields_forM_cons.1 h
    obtain ⟨-, rfl⟩ := yields_patch.1 hfirst
    obtain ⟨hlen, hpools, hkeeps, hleads⟩ := ih
      (fun k' hk' => Draft.jumpAt_retarget (hjumps k' (by simp [hk']))) hrest
    have hsame : (d.retarget k d.code.length).code.length = d.code.length := by
      rw [Draft.code_retarget, List.length_modify]
    rw [hsame] at hlen hleads
    refine ⟨hlen, hpools, fun p hp => ?_, fun k' hk' => ?_⟩
    · simp only [List.mem_cons, not_or] at hp
      rw [hkeeps p hp.2, Draft.code_retarget, List.getElem?_modify]
      simp [Ne.symm hp.1]
    · by_cases hmem : k' ∈ rest
      · exact hleads k' hmem
      · obtain rfl : k' = k := by simpa [hmem] using hk'
        obtain ⟨offset, hjump⟩ := hjumps k' (by simp)
        refine ⟨Assembly.jumpOffset k' d.code.length, ?_, by unfold Assembly.jumpOffset; omega⟩
        rw [hkeeps k' hmem, Draft.code_retarget, List.getElem?_modify, hjump]
        simp [Instr.withOffset, Instr.op, Instr.first]

/-- The position told for an address selects it, as far as sixteen bits can. -/
theorem Draft.indexOf_address (d : Draft) (v : Pooled) :
    ∃ k, (d.store (.address v)).pools.addresses.entries[k]? = some v ∧
      d.indexOf (.address v) = k % 65536 := by
  obtain ⟨k, hindex, hfound⟩ := d.pools.addresses.intern_found v
  exact ⟨k, hfound, hindex⟩

end Choice

/-! ## The whole -/

/-- What stands before the table: a number is asked for, and the code jumps by it. -/
def pickHead (count callee n : Nat) : List Instr :=
  [.asbx .parami (.imm 0) 0, .asbx .parami (.imm 0) ((count : Int) - 1),
    .abc .callK (.pool (some .pointer) callee) (.imm 3) (.imm 1),
    .abx .result (.imm 0) (.reg (some .int) n), .abx .ijmp (.reg (some .int) n) (.imm 0)]

theorem Picks.of_head {q count callee n : Nat} (hcount : fitsOffset ((count : Int) - 1) = true)
    (hhead : ∀ j < 5, code[q + j]? = (pickHead count callee n)[j]?)
    (htable : ∀ j < count, ∃ offset, code[q + 5 + j]? = some (.asbx .jmp (.imm 0) offset)) :
    Picks code q count n where
  low := hhead 0 (by omega)
  high := hhead 1 (by omega)
  fits := hcount
  call := ⟨_, hhead 2 (by omega)⟩
  result := hhead 3 (by omega)
  pick := hhead 4 (by omega)
  table := htable

theorem Settled.choices {c : Context} {m : Mark} {byAddress float : Bool} {rng : String}
    {choices : List Expr} (h : Settled c byAddress (.randomPick m float rng choices)) :
    ∀ e ∈ choices, Settled c false e := by
  cases h with
  | randomPick hsettled => exact hsettled

/-- The code of a random choice whose number is asked for at position `q` and left in register
`n`. -/
structure Dispatches (t : Target) (d : Draft) (choices : List Expr) (out : Place) (d' : Draft)
    (q n : Nat) : Prop where
  /-- A number below the count is drawn, and the code jumps by it into a table. -/
  picks : Picks d'.code q choices.length n
  /-- It is asked of the random service. -/
  asks : ∃ k, d'.code[q + 2]? =
    some (.abc .callK (.pool (some .pointer) (k % 65536)) (.imm 3) (.imm 1)) ∧
    d'.pools.addresses.entries[k]? = some (.native .random)
  /-- Each entry leads to the code of its choice, and from there control comes to the end. -/
  arms : ∀ (i : Nat) (x : Expr), choices[i]? = some x → ∃ start stop,
    JumpsTo d'.code (q + 5 + i) start ∧ Arm t d out x.lower d'.code start stop ∧
    Arrives d'.code d'.code.length stop

/-- A random choice among settled choices draws a number below their count from the random service
and jumps by it into a table of jumps. The jump at each position leads to the code of the choice
there. Whatever way control takes through it, the value found is copied to the register of the
result, and control comes to the end of the whole. -/
theorem random_choice_dispatches {t : Target} {c : Context} {m : Mark} {float : Bool}
    {rng : String} {choices : List Expr} {d d' : Draft} {out : Place}
    (h : Settled c false (.randomPick m float rng choices)) (hk : t.kind = c.kind)
    (hd : Sound c d) (hy : Yields t (Expr.randomPick m float rng choices).lower d out d') :
    ∃ q n r, out = { number := r, bank? := some (if float then .float else .int) } ∧
      Dispatches t d choices out d' q n := by
  have hsettled := h.choices
  rw [Expr.lower] at hy
  obtain ⟨index, d₁, r, finishes, d₃, hdraw, hcount, offered, rfl, hlowered, hpatched⟩ :=
    yields_randomPick rfl hy
  obtain ⟨d₀, n, hprefix, hindex, hpools, hdrawn⟩ := drawPosition_code hd hcount hdraw
  obtain ⟨k, hk', hat⟩ := d₀.indexOf_address (.native .random)
  have hl := drawPosition_lowers rng _ d index d₁ hd hdraw
  have hsound : Sound c (d₁.withTable index choices.length (if float then .float else .int) r) :=
    (hd.work (hl.toWork.drop hl.fresh)).mono (by simp [Draft.withTable, Draft.drop_push])
      fun reg hreg => by
        rw [Draft.withTable, Draft.drop_push]
        exact (Draft.mem_live_take offered.lt).2 (.inl (by simpa using hreg))
  have hlaid := choices_laid (fun e he => (hsettled e he).performs hk) (by simp)
    List.nodup_range' hsound (fun k hk => Draft.jumpAt_withTable hk) hlowered
  obtain ⟨hlength, hpools', hkept, hended⟩ :=
    patchAll_code (fun k hk => (hlaid.waits k hk).2) hpatched
  have hcode : (d₁.withTable index choices.length (if float then .float else .int) r).code =
      d₀.code ++ pickHead choices.length (k % 65536) n ++
        List.replicate choices.length (.asbx .jmp (.imm 0) 0) := by
    rw [Draft.code_withTable, hdrawn, hindex, hat]
    simp [pickHead]
  have hsize : d₁.code.length + 1 = d₀.code.length + 5 := by simp [hdrawn]
  have hstart : d₀.code.length + 5 ≤
      (d₁.withTable index choices.length (if float then .float else .int) r).code.length := by
    simp [hcode, pickHead]
  -- Up to the table the code stays as it was written before the choices.
  have hhead (j : Nat) (hj : j < 5) :
      d'.code[d₀.code.length + j]? = (pickHead choices.length (k % 65536) n)[j]? := by
    rw [hkept _ fun hmem => by
      have := (hlaid.waits _ hmem).1
      omega, hlaid.keeps _ (by omega) fun hmem => by
      have := (List.mem_range'_1.1 hmem).1
      omega, hcode, getElem?_segment (by simpa [pickHead] using hj)]
  have harms (i : Nat) (x : Expr) (hx : choices[i]? = some x) : ∃ start stop,
      JumpsTo d'.code (d₀.code.length + 5 + i) start ∧
      Arm t d { number := r, bank? := some (if float then .float else .int) } x.lower d'.code start
        stop ∧ Arrives d'.code d'.code.length stop := by
    obtain ⟨entry, start, stop, hentry, hjump, harm, hstop⟩ := hlaid.arms d'.code hlength
      (fun p hp _ => hkept p hp) i x hx
    obtain rfl : d₀.code.length + 5 + i = entry := by
      obtain ⟨hlt, heq⟩ := List.getElem?_eq_some_iff.1 hentry
      simpa [hsize] using heq
    refine ⟨start, stop, hjump, harm.within (by simp [Draft.withTable, hl.surroundings]), ?_⟩
    obtain ⟨value, -, hcopy⟩ := harm.copies
    refine .next hcopy (op_proceeds_copyOf _ _ _) ?_
    rw [hlength]
    rcases hstop with hend | hwait
    · rw [hend]
      exact .here
    · exact (hended _ hwait).arrives
  refine ⟨d₀.code.length, n, r, rfl, ?_, ⟨k, hhead 2 (by omega), ?_⟩, harms⟩
  · refine .of_head hcount hhead fun j hj => ?_
    obtain ⟨_, _, ⟨offset, hoffset, -⟩, -⟩ := harms j _ (List.getElem?_eq_getElem hj)
    exact ⟨offset, hoffset⟩
  · have hgrow := hlaid.pools
    simp only [Draft.withTable, Draft.pools_take, Draft.pools_pushAll, Draft.pools_drop,
      Draft.pools_push, hpools] at hgrow
    rw [hpools', ← Array.getElem?_toList]
    exact getElem?_of_extends hgrow.addresses (by simpa using hk')

def Expr.nestedChoice : Expr :=
  let number (value : Int32) : Expr := .constant { span := ⟨0, 0⟩, ty := some .int } (.int value)
  .randomPick { span := ⟨0, 0⟩, ty := some .int } false ""
    [number 1, .randomPick { span := ⟨0, 0⟩, ty := some .int } false "" [number 2, number 3]]

theorem nestedChoice_settled (c : Context) : Settled c false Expr.nestedChoice := by
  have hnumber (value : Int32) :
      Settled c false (.constant { span := ⟨0, 0⟩, ty := some .int } (.int value)) :=
    .constant rfl rfl
  refine .randomPick ?_ (by simp [Expr.ty, Expr.mark]; rfl) rfl rfl
  intro e he
  simp only [List.mem_cons, List.not_mem_nil, or_false] at he
  rcases he with rfl | rfl
  · exact hnumber 1
  · refine .randomPick ?_ (by simp [Expr.ty, Expr.mark]; rfl) rfl rfl
    intro e he
    simp only [List.mem_cons, List.not_mem_nil, or_false] at he
    rcases he with rfl | rfl
    · exact hnumber 2
    · exact hnumber 3

theorem nested_choice_dispatches :
    let t : Target := ⟨{}, .static⟩
    let c : Context := .ofBody {} {} {}
    ∃ d out d', Sound c d ∧ Yields t Expr.nestedChoice.lower d out d' ∧
      ∃ q n r, out = { number := r, bank? := some .int } ∧
        Dispatches t d Expr.nestedChoice.children out d' q n := by
  intro t c
  have hd : Sound c (Draft.start "Anonymous" .static 0) := Draft.start_sound (c := c) _ 0 rfl
  let run := (Expr.nestedChoice.lower.run t).run (Draft.start "Anonymous" .static 0)
  have hrun : Yields t Expr.nestedChoice.lower (Draft.start "Anonymous" .static 0) run.1 run.2 :=
    ⟨(Prod.eta run).symm, by decide +kernel⟩
  exact ⟨_, _, _, hd, hrun, random_choice_dispatches (nestedChoice_settled c) rfl hd hrun⟩

end ActorScript
