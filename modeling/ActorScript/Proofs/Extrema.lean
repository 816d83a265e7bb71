import ActorScript.Proofs.Conditionals
import ActorScript.Proofs.Machine.Words
import ActorScript.Proofs.Typing.Calls
import Mathlib.Data.List.MinMax

/-! # Least and greatest of integers

Constants among the arguments of a least or a greatest value are replaced by the best of them, by
their order as signed words. Whatever the other arguments are, the value chosen is the same as among
all arguments, unless these are ordered as unsigned words and there are constants on both sides of
the greatest signed word.
-/

namespace ActorScript

namespace Typing

/-! ## Choosing a value -/

/-- Whether a value is chosen before another one, by the operator that compares values of the
kind. -/
def prefers (op : Extremum) (unsigned : Bool) (value best : Int32) : Bool :=
  foldOrder (match op with
    | .min => .lt
    | .max => .gt) (if unsigned then .uint else .int) (.int value) (.int best)

/-- The value chosen: the first one, until one comes that is chosen before it. -/
def choose (op : Extremum) (unsigned : Bool) : List Int32 → Option Int32
  | [] => none
  | first :: others =>
      some (others.foldl (fun best v => if prefers op unsigned v best then v else best) first)

/-- The number that a word is compared as. -/
def rank (unsigned : Bool) (v : Int32) : Int :=
  if unsigned then v.toUInt32.toNat else v.toInt

/-- Unsigned words are the signed ones, with those below zero put behind the others. -/
theorem rank_unsigned (v : Int32) :
    rank true v = rank false v + (if rank false v < 0 then 2 ^ 32 else 0) ∧
      -2 ^ 31 ≤ rank false v ∧ rank false v < 2 ^ 31 := by
  have hcases := v.toBitVec.toInt_eq_toNat_cond
  have hlt := v.toBitVec.isLt
  change (v.toBitVec.toNat : Int) =
      v.toBitVec.toInt + (if v.toBitVec.toInt < 0 then 2 ^ 32 else 0) ∧
    -2 ^ 31 ≤ v.toBitVec.toInt ∧ v.toBitVec.toInt < 2 ^ 31
  split at hcases <;> split <;> omega

theorem rank_neg_iff {v : Int32} : rank false v < 0 ↔ v < 0 := by
  rw [Int32.lt_iff_toInt_lt]
  rfl

/-- Values with lesser numbers are chosen first. -/
def place (op : Extremum) (unsigned : Bool) (v : Int32) : Int :=
  match op with
  | .min => rank unsigned v
  | .max => -rank unsigned v

section Choosing

variable {op : Extremum} {unsigned : Bool} {v w m : Int32} {values : List Int32}

theorem place_injective (h : place op unsigned v = place op unsigned w) : v = w := by
  have hrank : rank unsigned v = rank unsigned w := by
    cases op with
    | min => exact h
    | max => exact Int.neg_inj.1 h
  cases unsigned with
  | false => exact Int32.toInt_inj.1 hrank
  | true =>
    have hword : v.toUInt32 = w.toUInt32 := UInt32.toNat_inj.1 (Int.ofNat.inj hrank)
    exact Int32.toBitVec.inj (congrArg UInt32.toBitVec hword)

theorem prefers_iff :
    prefers op unsigned v w = true ↔ place op unsigned v < place op unsigned w := by
  cases op <;> cases unsigned <;>
    simp [prefers, place, rank, foldOrder, Ty.isFloat, Ty.isUnsigned, Constant.toInt,
      Constant.toUInt, Constant.int, Int32.lt_iff_toInt_lt, UInt32.lt_iff_toNat_lt]

theorem choose_eq_argmin {β : Type} [Preorder β] [DecidableLT β] {f : Int32 → β}
    (hf : ∀ {v w}, prefers op unsigned v w = true ↔ f v < f w) :
    choose op unsigned values = values.argmin f := by
  cases values with
  | nil => rfl
  | cons first others =>
    change _ = others.foldl (List.argAux fun v w => f v < f w) (some first)
    rw [choose]
    induction others generalizing first with
    | nil => rfl
    | cons v rest ih =>
      rw [List.foldl_cons, List.foldl_cons, ih, List.argAux]
      simp only [hf, apply_ite some]

/-- No value is chosen before the best one, which is one of them. -/
theorem choose_eq_some_iff : choose op unsigned values = some m ↔
    m ∈ values ∧ ∀ v ∈ values, place op unsigned m ≤ place op unsigned v := by
  rw [choose_eq_argmin prefers_iff]
  refine ⟨fun h => ⟨List.argmin_mem h, fun v hv => List.le_of_mem_argmin hv h⟩, ?_⟩
  rintro ⟨hmem, hleast⟩
  cases hm : values.argmin (place op unsigned) with
  | none => simp [List.argmin_eq_none.1 hm] at hmem
  | some w =>
    rw [place_injective (Int.le_antisymm (List.le_of_mem_argmin hmem hm)
      (hleast w (List.argmin_mem hm)))]

/-- The same value is chosen from lists that hold the best of each other. -/
theorem choose_eq_of_best {values' : List Int32} (hsub : ∀ v ∈ values', v ∈ values)
    (hleast : ∀ v ∈ values, ∃ w ∈ values', place op unsigned w ≤ place op unsigned v) :
    choose op unsigned values' = choose op unsigned values := by
  cases hchoose : choose op unsigned values' with
  | none =>
    have hempty : values' = [] := by
      cases values' with
      | nil => rfl
      | cons => simp [choose] at hchoose
    have hnone : values = [] := by
      rw [List.eq_nil_iff_forall_not_mem]
      intro v hv
      obtain ⟨w, hw, -⟩ := hleast v hv
      simp [hempty] at hw
    simp [hnone, choose]
  | some m =>
    obtain ⟨hmem, hbest⟩ := choose_eq_some_iff.1 hchoose
    refine (choose_eq_some_iff.2 ⟨hsub m hmem, fun v hv => ?_⟩).symm
    obtain ⟨w, hw, hle⟩ := hleast v hv
    exact (hbest w hw).trans hle

end Choosing

/-! ## Arguments -/

/-- Values of arguments in order: a constant has its own, and the others have those of a list. -/
def argumentValues : List Expr → List Int32 → List Int32
  | [], _ => []
  | e :: rest, values =>
      match e.constant? with
      | some c => c.toInt :: argumentValues rest values
      | none => values.take 1 ++ argumentValues rest (values.drop 1)

def variableCount (args : List Expr) : Nat :=
  args.countP fun e => !e.isConstant

section Arguments

variable {op : Extremum} {unsigned : Bool} {span : Span} {args : List Expr} {values : List Int32}

theorem isConstant_of_constant? {e : Expr} {c : Constant} (h : e.constant? = some c) :
    e.isConstant = true := by
  simp [Expr.isConstant, h]

theorem mem_argumentValues (hlen : values.length = variableCount args) {v : Int32} :
    v ∈ argumentValues args values ↔
      (∃ c ∈ args.filterMap Expr.constant?, c.toInt = v) ∨ v ∈ values := by
  induction args generalizing values with
  | nil =>
    obtain rfl : values = [] := List.eq_nil_of_length_eq_zero hlen
    simp [argumentValues]
  | cons e rest ih =>
    cases hc : e.constant? with
    | some c =>
      have hconst := isConstant_of_constant? hc
      have hlen : values.length = variableCount rest := by
        simpa [variableCount, hconst] using hlen
      rw [argumentValues, hc, List.filterMap_cons_some hc]
      simp only [List.mem_cons, ih hlen, exists_eq_or_imp, or_assoc, eq_comm (a := v)]
    | none =>
      have hconst : e.isConstant = false := by simp [Expr.isConstant, hc]
      cases values with
      | nil => simp [variableCount, hconst] at hlen
      | cons w values =>
        have hlen : values.length = variableCount rest := by
          simpa [variableCount, hconst] using hlen
        rw [argumentValues, hc, List.filterMap_cons_none hc]
        simp only [List.take_succ_cons, List.take_zero, List.drop_succ_cons, List.drop_zero,
          List.cons_append, List.nil_append, List.mem_cons, ih hlen]
        exact or_left_comm

/-- The best of some constants has the best of their values, as signed words. -/
theorem choose_constants (op : Extremum) (first : Constant) (others : List Constant) :
    choose op false ((first :: others).map Constant.toInt) =
      some (bestOf op false first others).toInt := by
  have hbeats (c best : Constant) : beats op false c best = prefers op false c.toInt best.toInt := by
    cases op <;> rfl
  have hfold : (bestOf op false first others).toInt =
      (others.map Constant.toInt).foldl (fun best v => if prefers op false v best then v else best)
        first.toInt := by
    unfold bestOf
    induction others generalizing first with
    | nil => rfl
    | cons c rest ih =>
      rw [List.map_cons, List.foldl_cons, List.foldl_cons, ih, hbeats]
      split <;> rfl
  rw [hfold]
  rfl

theorem filter_collapseConstants :
    (collapseConstants span op false args).filter (!·.isConstant) =
      args.filter (!·.isConstant) := by
  unfold collapseConstants
  dsimp only
  split
  next => rfl
  next first others hconstants =>
    have hbest : (Expr.ofConstant span (.int (bestOf op false first others).toInt)).isConstant =
        true := rfl
    have hnone : [Expr.ofConstant span (.int (bestOf op false first others).toInt)].filter
        (!·.isConstant) = [] := by
      simp [hbest]
    rw [if_neg (by simp), List.filter_append, List.filter_append, hnone, List.append_nil,
      List.filter_filter]
    simp only [Bool.and_self]
    rw [← List.filter_append, List.takeWhile_append_dropWhile]

theorem variableCount_collapseConstants :
    variableCount (collapseConstants span op false args) = variableCount args := by
  rw [variableCount, variableCount, List.countP_eq_length_filter, List.countP_eq_length_filter,
    filter_collapseConstants]

/-- Constants among the arguments kept: the best of those given. -/
theorem constants_collapseConstants {first : Constant} {others : List Constant}
    (h : args.filterMap Expr.constant? = first :: others) :
    (collapseConstants span op false args).filterMap Expr.constant? =
      [.int (bestOf op false first others).toInt] := by
  have hothers (l : List Expr) (hl : ∀ e ∈ l, (!e.isConstant) = true) :
      l.filterMap Expr.constant? = [] := by
    rw [List.filterMap_eq_nil_iff]
    intro e he
    simpa [Expr.isConstant] using hl e he
  unfold collapseConstants
  rw [h]
  dsimp only
  rw [List.filterMap_append, List.filterMap_append, hothers (args.takeWhile _) ?_,
    hothers (List.filter _ _) ?_]
  · rfl
  · intro e he
    have h := List.of_mem_filter he
    exact h
  · intro e he
    have h := List.mem_takeWhile_imp he
    exact h

/-! ## What is chosen from the arguments kept -/

/-- Arguments ordered as unsigned words that have constants on both sides of the greatest signed
word, so that constants are in another order as signed words. -/
def Straddle (args : List Expr) : Prop :=
  args.all (·.ty.isUnsigned) = true ∧
    (∃ c ∈ args.filterMap Expr.constant?, c.toInt < 0) ∧
    ∃ c ∈ args.filterMap Expr.constant?, 0 ≤ c.toInt

/-- Words on one side of the greatest signed word are in one order. -/
theorem place_le_of_side {v w : Int32} (hside : v < 0 ↔ w < 0)
    (h : place op false v ≤ place op false w) : place op true v ≤ place op true w := by
  have hv := rank_unsigned v
  have hw := rank_unsigned w
  rw [← rank_neg_iff, ← rank_neg_iff] at hside
  cases op with
  | min =>
    change rank true v ≤ rank true w
    have h : rank false v ≤ rank false w := h
    grind
  | max =>
    change -rank true v ≤ -rank true w
    have h : -rank false v ≤ -rank false w := h
    grind

/-- With words on both sides none is the best in both orders. -/
theorem place_lt_of_sides {m v w : Int32} (hv : v < 0) (hw : 0 ≤ w)
    (hmv : place op false m ≤ place op false v) (hmw : place op false m ≤ place op false w) :
    place op true v < place op true m ∨ place op true w < place op true m := by
  have hm := rank_unsigned m
  have hv' := rank_unsigned v
  have hw' := rank_unsigned w
  have hv : rank false v < 0 := rank_neg_iff.2 hv
  have hw : ¬ rank false w < 0 := fun h => absurd (rank_neg_iff.1 h) (by simpa using hw)
  cases op with
  | min =>
    change rank true v < rank true m ∨ rank true w < rank true m
    have hmv : rank false m ≤ rank false v := hmv
    grind
  | max =>
    change -rank true v < -rank true m ∨ -rank true w < -rank true m
    have hmw : -rank false m ≤ -rank false w := hmw
    grind

/-- The same value is chosen from the arguments kept, whatever the others are, unless the constants
straddle. -/
theorem choose_collapseConstants_iff :
    (∀ values : List Int32, values.length = variableCount args →
      choose op (args.all (·.ty.isUnsigned))
          (argumentValues (collapseConstants span op false args) values) =
        choose op (args.all (·.ty.isUnsigned)) (argumentValues args values)) ↔ ¬ Straddle args := by
  cases hconstants : args.filterMap Expr.constant? with
  | nil =>
    have hkept : collapseConstants span op false args = args := by
      unfold collapseConstants
      rw [hconstants]
    rw [hkept]
    refine iff_of_true (fun _ _ => rfl) fun h => ?_
    obtain ⟨-, ⟨c, hc, -⟩, -⟩ := h
    simp [hconstants] at hc
  | cons first others =>
    obtain ⟨m, hm⟩ : ∃ m, (bestOf op false first others).toInt = m := ⟨_, rfl⟩
    obtain ⟨hbest, hfirst⟩ := choose_eq_some_iff.1 (hm ▸ choose_constants op first others)
    have hleast : ∀ c ∈ args.filterMap Expr.constant?, place op false m ≤ place op false c.toInt :=
      fun c hc => hfirst _ (List.mem_map_of_mem (hconstants ▸ hc))
    have hkept {values : List Int32} (hlen : values.length = variableCount args) {v : Int32} :
        v ∈ argumentValues (collapseConstants span op false args) values ↔ v = m ∨ v ∈ values := by
      rw [mem_argumentValues (hlen.trans variableCount_collapseConstants.symm),
        constants_collapseConstants hconstants, hm]
      simp [eq_comm (a := v), Constant.toInt, Constant.int]
    constructor
    · -- With the best constant for every other argument, that constant is chosen from those kept.
      rintro hsame ⟨hunsigned, ⟨c, hc, hneg⟩, c', hc', hpos⟩
      have hlen : (List.replicate (variableCount args) m).length = variableCount args :=
        List.length_replicate
      have honly : choose op true (argumentValues (collapseConstants span op false args)
          (List.replicate (variableCount args) m)) = some m := by
        refine choose_eq_some_iff.2 ⟨(hkept hlen).2 (.inl rfl), fun v hv => ?_⟩
        rcases (hkept hlen).1 hv with rfl | hv
        · exact le_rfl
        · rw [List.eq_of_mem_replicate hv]
      have hchosen := hsame _ hlen
      rw [hunsigned, honly, eq_comm, choose_eq_some_iff] at hchosen
      have hfirst {c : Constant} (hc : c ∈ args.filterMap Expr.constant?) :=
        hchosen.2 c.toInt ((mem_argumentValues hlen).2 (.inl ⟨c, hc, rfl⟩))
      rcases place_lt_of_sides hneg hpos (hleast c hc) (hleast c' hc') with hlt | hlt
      · exact absurd (hfirst hc) (Int.not_le.2 hlt)
      · exact absurd (hfirst hc') (Int.not_le.2 hlt)
    · intro hstraddle values hlen
      have hmem : ∃ c ∈ args.filterMap Expr.constant?, c.toInt = m := by
        rw [hconstants, ← List.mem_map]
        exact hbest
      refine choose_eq_of_best (fun v hv => ?_) fun v hv => ?_
      · rw [mem_argumentValues hlen]
        refine ((hkept hlen).1 hv).imp_left fun heq => ?_
        rwa [heq]
      rcases (mem_argumentValues hlen).1 hv with ⟨c, hc, rfl⟩ | hv
      · refine ⟨m, (hkept hlen).2 (.inl rfl), ?_⟩
        cases hunsigned : args.all (·.ty.isUnsigned) with
        | false => exact hleast c hc
        | true =>
          refine place_le_of_side ?_ (hleast c hc)
          obtain ⟨best, hbestMem, rfl⟩ := hmem
          by_contra hside
          refine hstraddle ⟨hunsigned, ?_⟩
          by_cases hneg : best.toInt < 0
          · exact ⟨⟨best, hbestMem, hneg⟩, c, hc, by simpa [hneg] using hside⟩
          · exact ⟨⟨c, hc, by simpa [hneg] using hside⟩, best, hbestMem, by simpa using hneg⟩
      · exact ⟨v, (hkept hlen).2 (.inr hv), le_rfl⟩

/-- The least or greatest of integers keeps the arguments that are not constants, with one constant
for all others. What is chosen from these is what the operators that compare arguments of those
types choose from all, for any values of those that are not constants, unless constants straddle the
greatest signed word and all arguments are unsigned. -/
theorem extremum_keeps_choice {σ : Setting} {s : Scope} {m : Mark} {written : List Expr}
    (op : Extremum) (hm : m.ty = none)
    (hargs : outcome (settleArgs (fun _ _ => extremumArgument) 0 written) σ s = .ok args)
    (hint : ∀ e ∈ args, e.ty.isFloat = false) :
    ∃ kept e, outcome (Expr.extremum m op written).settle σ s = .ok e ∧
      (kept = [e] ∨ e = .extremum (Expr.settled m.span .int) op kept) ∧
      kept.filter (!·.isConstant) = args.filter (!·.isConstant) ∧
      (kept.filterMap Expr.constant?).length ≤ 1 ∧
      ((∀ values : List Int32, values.length = variableCount args →
          choose op (args.all (·.ty.isUnsigned)) (argumentValues kept values) =
            choose op (args.all (·.ty.isUnsigned)) (argumentValues args values)) ↔
        ¬ Straddle args) := by
  have hnoting : Noting (settleArgs (fun _ _ => extremumArgument) 0 written) :=
    settleArgs_noting _ written (fun _ _ => inferInstance) 0
  have hfloat : args.any (·.ty.isFloat) = false := by simpa using hint
  refine ⟨collapseConstants m.span op false args, extremumAmong m.span op false args, ?_, ?_,
    filter_collapseConstants, ?_, choose_collapseConstants_iff⟩
  · rw [Expr.settle, unlessTyped_eq (by exact hm), outcome_bind_ok]
    refine ⟨args, hargs, ?_⟩
    rw [extremumOf, if_neg (by simp [hfloat])]
    rfl
  · unfold extremumAmong
    split
    next only heq => exact .inl heq
    next => exact .inr rfl
  · cases hconstants : args.filterMap Expr.constant? with
    | nil =>
      unfold collapseConstants
      rw [hconstants]
      simp [hconstants]
    | cons => simp [constants_collapseConstants hconstants]

end Arguments

/-- A count and two integers are ordered as signed words, so one of the integers is enough. -/
theorem extremum_keeps_choice_count :
    let m : Mark := { span := ⟨0, 0⟩ }
    let constant (v : Int32) : Expr := .ofConstant ⟨0, 0⟩ (.int v)
    let settled := [constant 3, .localVar (Expr.settled ⟨0, 0⟩ .uint) 0, constant (-7)]
    ∃ kept e, outcome (Expr.extremum m .max [constant 3, .localVar m 0, constant (-7)]).settle
        (.ofImps 1) countAndFlag = .ok e ∧
      (kept = [e] ∨ e = .extremum (Expr.settled ⟨0, 0⟩ .int) .max kept) ∧
      ∀ v : Int32, choose .max false (argumentValues kept [v]) =
        choose .max false (argumentValues settled [v]) := by
  intro m constant settled
  have hargs : outcome (settleArgs (fun _ _ => extremumArgument) 0
      [constant 3, .localVar m 0, constant (-7)]) (.ofImps 1) countAndFlag = .ok settled := rfl
  obtain ⟨kept, e, he, hkept, -, -, hsame⟩ :=
    extremum_keeps_choice (m := m) .max rfl hargs (by decide)
  refine ⟨kept, e, he, hkept, fun v => hsame.2 (fun h => ?_) [v] rfl⟩
  exact absurd h.1 (by decide)

def extremumArgs? : Expr → Option (List Expr)
  | .extremum _ _ args => some args
  | _ => none

/-- The constant kept is the greatest as a signed word, and with a count of zero it is chosen in
place of the greatest unsigned one. -/
theorem extremum_drops_greatest_word :
    ((parseExpression "max(count, 4000000000, uint(1))").toOption.bind fun e =>
      (outcome e.settle (.ofImps 1) countAndFlag).toOption.bind extremumArgs?).bind
        (fun kept => choose .max true (argumentValues kept [0])) = some 1 ∧
      choose .max true [0, -294967296, 1] = some (-294967296) := by
  decide +kernel

end Typing

end ActorScript
