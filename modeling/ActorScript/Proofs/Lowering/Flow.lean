import ActorScript.Proofs.Operands

/-! # Where control goes

Code is closed if every jump of it leads into it or to its end, every instruction that may be
skipped is there, and every jump by a drawn number leads into a table of jumps that has an entry
for each number that can be drawn. Closed code stays closed when more code is added that looks
no further than to its own end, and when a jump gets another target.
-/

namespace ActorScript

variable {i : Instr} {code pre seg : List Instr} {k count n p : Nat}

def Op.skips : Op → Bool
  | .test | .equal _ _ | .compare _ _ _ => true
  | _ => false

/-- Whether an operation goes on to some instruction behind it without looking further than over
the `rest` that follow. Jumps are told apart by their distances. -/
def Op.proceeds (rest : Nat) : Op → Bool
  | .jmp | .ijmp | .unassigned _ => false
  | op => !op.skips || decide (0 < rest)

/-- Whether an instruction leads no further than to the end of the `rest` that follow it. -/
def Instr.proceeds (rest : Nat) : Instr → Bool
  | .asbx .jmp (.imm 0) offset => fitsOffset offset && decide (0 ≤ offset ∧ offset ≤ rest)
  | i => i.op.proceeds rest

/-- Whether every instruction of a block leads no further than to the end of the block. -/
@[simp]
def flowing : List Instr → Bool
  | [] => true
  | i :: rest => i.proceeds rest.length && flowing rest

theorem Op.proceeds_of_plain {op : Op} (h : op.proceeds 0 = true) (rest : Nat) :
    op.proceeds rest = true := by
  cases op <;> simp_all [proceeds, skips]

theorem Instr.proceeds_of_plain (h : i.op.proceeds 0 = true) (rest : Nat) :
    i.proceeds rest = true := by
  unfold proceeds
  split
  next => cases h
  next => exact Op.proceeds_of_plain h rest

theorem Instr.proceeds_of_op {rest : Nat} (h : i.op.proceeds rest = true) :
    i.proceeds rest = true := by
  unfold proceeds
  split
  next => cases h
  next => exact h

/-- Instructions that write a register go on to the next one. -/
theorem Instr.proceeds_of_target {r : Bank × Nat} (h : i.target? = some r) (rest : Nat) :
    i.proceeds rest = true := by
  apply proceeds_of_plain
  cases i with
  | abc op a b c => cases op <;> simp_all [target?, Instr.op, Op.proceeds, Op.skips]
  | abx op a bx => cases op <;> simp_all [target?, Instr.op, Op.proceeds, Op.skips]
  | asbx op a offset => cases op <;> simp_all [target?, Instr.op, Op.proceeds, Op.skips]

theorem proceeds_of_flowing (h : flowing code = true) (hi : code[k]? = some i) :
    i.proceeds (code.length - k - 1) = true := by
  induction code generalizing k with
  | nil => simp at hi
  | cons j rest ih =>
    rw [flowing, Bool.and_eq_true] at h
    cases k with
    | zero =>
      cases hi
      exact h.1
    | succ k =>
      have hrest := ih h.2 (by simpa using hi)
      have hlen : (j :: rest).length - (k + 1) - 1 = rest.length - k - 1 := by
        rw [List.length_cons]
        omega
      rwa [hlen]

/-! ## Closed code -/

/-- At position `q`, a number from 0 to below `count` is asked for and left in register `n`. -/
structure Draws (code : List Instr) (q count n : Nat) : Prop where
  low : code[q]? = some (.asbx .parami (.imm 0) 0)
  high : code[q + 1]? = some (.asbx .parami (.imm 0) ((count : Int) - 1))
  fits : fitsOffset ((count : Int) - 1) = true
  call : ∃ callee, code[q + 2]? = some (.abc .callK callee (.imm 3) (.imm 1))
  result : code[q + 3]? = some (.abx .result (.imm 0) (.reg (some .int) n))

theorem Draws.of_append (head : List Instr) (callee : Operand)
    (hfits : fitsOffset ((count : Int) - 1) = true) :
    Draws (head ++ [.asbx .parami (.imm 0) 0, .asbx .parami (.imm 0) ((count : Int) - 1),
      .abc .callK callee (.imm 3) (.imm 1), .abx .result (.imm 0) (.reg (some .int) n)])
      head.length count n where
  low := by simp
  high := by simp
  fits := hfits
  call := ⟨callee, by simp⟩
  result := by simp

/-- A number is drawn, and the code jumps by it into a table with a jump for every such number. -/
structure Picks (code : List Instr) (q count n : Nat) : Prop extends Draws code q count n where
  pick : code[q + 4]? = some (.abx .ijmp (.reg (some .int) n) (.imm 0))
  table : ∀ k < count, ∃ offset, code[q + 5 + k]? = some (.asbx .jmp (.imm 0) offset)

/-- From an instruction at position `p`, control stays within the code or comes to its end. -/
structure Instr.Lands (code : List Instr) (p : Nat) (i : Instr) : Prop where
  assigned : ∀ n, i.op ≠ .unassigned n
  jump : i.op = .jmp → ∃ offset : Int, i = .asbx .jmp (.imm 0) offset ∧
    fitsOffset offset = true ∧ 0 ≤ p + 1 + offset ∧ p + 1 + offset ≤ code.length
  pick : i.op = .ijmp → ∃ q count n, p = q + 4 ∧ Picks code q count n
  skip : i.op.skips = true → p + 2 ≤ code.length

def Closed (code : List Instr) : Prop :=
  ∀ (p : Nat) (i : Instr), code[p]? = some i → i.Lands code p

theorem closed_nil : Closed [] := by
  simp [Closed]

theorem getElem?_of_extends {α : Type} {xs ys : List α} (h : xs <+: ys) {x : α}
    (hx : xs[k]? = some x) : ys[k]? = some x := by
  obtain ⟨rest, rfl⟩ := h
  rw [List.getElem?_append_left (List.getElem?_eq_some_iff.1 hx).1, hx]

section Prefix

variable {code code' : List Instr}

theorem Draws.mono (h : code <+: code') {q : Nat} (hq : Draws code q count n) :
    Draws code' q count n where
  low := getElem?_of_extends h hq.low
  high := getElem?_of_extends h hq.high
  fits := hq.fits
  call := hq.call.imp fun _ => getElem?_of_extends h
  result := getElem?_of_extends h hq.result

theorem Picks.mono (h : code <+: code') {q : Nat} (hq : Picks code q count n) :
    Picks code' q count n where
  toDraws := hq.toDraws.mono h
  pick := getElem?_of_extends h hq.pick
  table k hk := (hq.table k hk).imp fun _ => getElem?_of_extends h

theorem Instr.Lands.mono (h : code <+: code') (hi : i.Lands code p) : i.Lands code' p where
  assigned := hi.assigned
  jump hop := by
    obtain ⟨offset, heq, hfits, hlow, hhigh⟩ := hi.jump hop
    have := h.length_le
    exact ⟨offset, heq, hfits, hlow, by omega⟩
  pick hop := by
    obtain ⟨q, count, n, hp, hq⟩ := hi.pick hop
    exact ⟨q, count, n, hp, hq.mono h⟩
  skip hop := Nat.le_trans (hi.skip hop) h.length_le

/-- An instruction that leads no further than over those that follow. -/
theorem Instr.lands_of_proceeds {rest : Nat} (h : i.proceeds rest = true)
    (hp : p + 1 + rest ≤ code.length) : i.Lands code p := by
  unfold proceeds at h
  split at h
  next offset =>
    simp only [Bool.and_eq_true, decide_eq_true_eq] at h
    exact {
      assigned := by simp [op]
      jump := fun _ => ⟨offset, rfl, h.1, by omega, by omega⟩
      pick := by simp [op]
      skip := by simp [op, Op.skips] }
  next =>
    exact {
      assigned := fun n hn => by simp [hn, Op.proceeds] at h
      jump := fun hop => by simp [hop, Op.proceeds] at h
      pick := fun hop => by simp [hop, Op.proceeds] at h
      skip := fun hop => by
        have hrest : 0 < rest := by
          unfold Op.proceeds at h
          split at h <;> simp_all
        omega }

/-! Code stays what it is behind other code. -/

theorem getElem?_behind {α : Type} {xs ys : List α} {x : α} (h : ys[k]? = some x) :
    (xs ++ ys)[xs.length + k]? = some x := by
  rw [List.getElem?_append_right (by omega), Nat.add_sub_cancel_left, h]

theorem Picks.behind {q : Nat} (h : Picks code q count n) :
    Picks (pre ++ code) (pre.length + q) count n where
  low := getElem?_behind h.low
  high := getElem?_behind h.high
  fits := h.fits
  call := h.call.imp fun _ => getElem?_behind
  result := getElem?_behind h.result
  pick := getElem?_behind h.pick
  table k hk := (h.table k hk).imp fun offset ho => by
    rw [show pre.length + q + 5 + k = pre.length + (q + 5 + k) by omega]
    exact getElem?_behind ho

theorem Instr.Lands.behind (h : i.Lands code p) : i.Lands (pre ++ code) (pre.length + p) where
  assigned := h.assigned
  jump hop := by
    obtain ⟨offset, heq, hfits, hlow, hhigh⟩ := h.jump hop
    rw [List.length_append]
    exact ⟨offset, heq, hfits, by omega, by omega⟩
  pick hop := by
    obtain ⟨q, count, n, hp, hq⟩ := h.pick hop
    exact ⟨pre.length + q, count, n, by omega, hq.behind⟩
  skip hop := by
    have := h.skip hop
    rw [List.length_append]
    omega

/-- Only the code added has to be looked at. -/
theorem Closed.extend (hc : Closed code)
    (h : ∀ (k : Nat) (i : Instr), seg[k]? = some i → i.Lands (code ++ seg) (code.length + k)) :
    Closed (code ++ seg) := by
  intro p i hi
  by_cases hp : p < code.length
  · rw [List.getElem?_append_left hp] at hi
    exact (hc p i hi).mono (List.prefix_append _ _)
  · obtain ⟨k, rfl⟩ := Nat.exists_eq_add_of_le (Nat.le_of_not_lt hp)
    rw [List.getElem?_append_right (by omega), Nat.add_sub_cancel_left] at hi
    exact h k i hi

theorem Closed.append (hc : Closed code) (h : flowing seg = true) : Closed (code ++ seg) := by
  apply hc.extend
  intro k i hi
  have hk := (List.getElem?_eq_some_iff.1 hi).1
  apply Instr.lands_of_proceeds (proceeds_of_flowing h hi)
  rw [List.length_append]
  omega

theorem Closed.concat (hc : Closed code) (hc' : Closed code') : Closed (code ++ code') :=
  hc.extend fun k i hi => (hc' k i hi).behind

/-- A jump back, or on to the end. -/
theorem Closed.jump (hc : Closed code) {offset : Int} (hfits : fitsOffset offset = true)
    (hlow : 0 ≤ code.length + 1 + offset) (hhigh : offset ≤ 0) :
    Closed (code ++ [.asbx .jmp (.imm 0) offset]) := by
  apply hc.extend
  intro k i hi
  have hk := (List.getElem?_eq_some_iff.1 hi).1
  obtain rfl : k = 0 := by simpa using hk
  obtain rfl : Instr.asbx .jmp (.imm 0) offset = i := by simpa using hi
  exact {
    assigned := by simp [Instr.op]
    jump := fun _ => ⟨offset, rfl, hfits, by omega, by
      rw [List.length_append, List.length_singleton]
      omega⟩
    pick := by simp [Instr.op]
    skip := by simp [Instr.op, Op.skips] }

/-- The jump by a number just drawn, with its table. -/
theorem Closed.pick (hc : Closed code) {q : Nat} (hq : Draws code q count n)
    (hlen : code.length = q + 4) :
    Closed (code ++ .abx .ijmp (.reg (some .int) n) (.imm 0) ::
      List.replicate count (.asbx .jmp (.imm 0) 0)) := by
  have htable : ∀ k < count, (code ++ .abx .ijmp (.reg (some .int) n) (.imm 0) ::
      List.replicate count (.asbx .jmp (.imm 0) 0))[q + 5 + k]? = some (.asbx .jmp (.imm 0) 0) := by
    intro k hk
    rw [List.getElem?_append_right (by omega), hlen, show q + 5 + k - (q + 4) = k + 1 by omega]
    simp [hk]
  apply hc.extend
  intro k i hi
  cases k with
  | zero =>
    obtain rfl : Instr.abx .ijmp (.reg (some .int) n) (.imm 0) = i := by simpa using hi
    exact {
      assigned := by simp [Instr.op]
      jump := by simp [Instr.op]
      pick := fun _ => ⟨q, count, n, hlen, {
        toDraws := hq.mono (List.prefix_append _ _)
        pick := by simp [← hlen]
        table := fun k hk => ⟨0, htable k hk⟩ }⟩
      skip := by simp [Instr.op, Op.skips] }
  | succ k =>
    simp only [List.getElem?_cons_succ, List.getElem?_replicate] at hi
    split at hi
    next hk =>
      cases hi
      have hrest : Instr.proceeds 0 (.asbx .jmp (.imm 0) 0) = true := rfl
      exact Instr.lands_of_proceeds hrest (by simp; omega)
    next => cases hi

end Prefix

/-! ## Jumps that get another target -/

section Retarget

variable {code : List Instr} {k : Nat} {offset new : Int}

theorem getElem?_withOffset (hk : code[k]? = some (.asbx .jmp (.imm 0) offset)) (p : Nat) :
    (code.modify k (·.withOffset new))[p]? =
      if p = k then some (.asbx .jmp (.imm 0) new) else code[p]? := by
  rw [List.getElem?_modify]
  by_cases hp : p = k
  · subst hp
    simp [hk, Instr.withOffset, Instr.op, Instr.first]
  · simp [hp, Ne.symm hp]

theorem getElem?_withOffset_of_ne (hk : code[k]? = some (.asbx .jmp (.imm 0) offset))
    (hi : code[p]? = some i) (hop : i.op ≠ .jmp) :
    (code.modify k (·.withOffset new))[p]? = some i := by
  rw [getElem?_withOffset hk, if_neg, hi]
  rintro rfl
  cases hi.symm.trans hk
  exact hop rfl

theorem Picks.withOffset (hk : code[k]? = some (.asbx .jmp (.imm 0) offset)) {q : Nat}
    (hq : Picks code q count n) : Picks (code.modify k (·.withOffset new)) q count n where
  low := getElem?_withOffset_of_ne hk hq.low (by simp [Instr.op])
  high := getElem?_withOffset_of_ne hk hq.high (by simp [Instr.op])
  fits := hq.fits
  call := hq.call.imp fun _ h => getElem?_withOffset_of_ne hk h (by simp [Instr.op])
  result := getElem?_withOffset_of_ne hk hq.result (by simp [Instr.op])
  pick := getElem?_withOffset_of_ne hk hq.pick (by simp [Instr.op])
  table j hj := by
    obtain ⟨o, ho⟩ := hq.table j hj
    rw [getElem?_withOffset hk]
    by_cases hjk : q + 5 + j = k
    · exact ⟨new, if_pos hjk⟩
    · exact ⟨o, (if_neg hjk).trans ho⟩

theorem Closed.withOffset (hc : Closed code) (hk : code[k]? = some (.asbx .jmp (.imm 0) offset))
    (hfits : fitsOffset new = true) (hlow : 0 ≤ k + 1 + new) (hhigh : k + 1 + new ≤ code.length) :
    Closed (code.modify k (·.withOffset new)) := by
  intro p i hi
  rw [getElem?_withOffset hk] at hi
  split at hi
  next hp =>
    subst hp
    cases hi
    exact {
      assigned := by simp [Instr.op]
      jump := fun _ => ⟨new, rfl, hfits, hlow, by rwa [List.length_modify]⟩
      pick := by simp [Instr.op]
      skip := by simp [Instr.op, Op.skips] }
  next =>
    have hland := hc p i hi
    exact { hland with
      jump := fun hop => by simpa using hland.jump hop
      pick := fun hop => by
        obtain ⟨q, count, n, hp, hq⟩ := hland.pick hop
        exact ⟨q, count, n, hp, hq.withOffset hk⟩
      skip := fun hop => by simpa using hland.skip hop }

end Retarget

/-! ## The end of the code -/

def Instr.isLast : Instr → Bool
  | .abc .tailK _ _ _ => true
  | .abc .ret (.imm a) _ _ | .asbx .reti (.imm a) _ => a / finalReturn % 2 = 1
  | _ => false

/-- Code was added whose last instruction ends the function, and no way leads past that. -/
def Stops (code code' : List Instr) : Prop :=
  ∃ body last, code' = body ++ [last] ∧ last.isLast = true ∧ (Closed code → Closed body)

theorem Stops.push {code' : List Instr} {last : Instr} (h : Closed code → Closed code')
    (hlast : last.isLast = true) : Stops code (code' ++ [last]) :=
  ⟨code', last, rfl, hlast, h⟩

theorem Stops.behind {code1 code2 : List Instr} (h : Closed code → Closed code1)
    (h' : Stops code1 code2) : Stops code code2 := by
  obtain ⟨body, last, hcode, hlast, hclosed⟩ := h'
  exact ⟨body, last, hcode, hlast, fun hc => hclosed (h hc)⟩

end ActorScript
