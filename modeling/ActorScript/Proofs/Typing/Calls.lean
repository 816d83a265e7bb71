import ActorScript.Proofs.Typing.Operations
import ActorScript.Proofs.Typing.Storage

/-! # What calls make

What is known of a callee and of its arguments once they are prepared, and what calls of such callees
with such arguments come to.
-/

namespace ActorScript

variable {f : Signature} {count index : Nat} {most : Option Nat} {callee : Callee} {op : Extremum}

namespace World

variable {w : World} {cls owner : ClassId} {name : String} {m : Member}

/-- A class in which something was found is there. -/
theorem descends_of_findMember (h : w.findMember cls name = some (m, owner)) :
    w.descends cls cls = true := by
  unfold findMember lineage at h
  unfold descends lineage
  cases hsize : w.classes.size with
  | zero => simp [hsize, lineageWithin] at h
  | succ n =>
    rw [lineageWithin]
    split <;> simp

end World

open Typing (numberType)

namespace Callee

/-- What an argument is like once it is prepared for its index. -/
def Wants : Callee → Nat → Expr → Prop
  | .function f, index, e => e.ty = f.params.getD index .error ∧ e.ty ≠ .void
  | .special _, _, e | .random2 _, _, e => e.ty.bank? = some .int
  | .random float _, _, e | .randomPick float _, _, e => e.ty.bank? = (numberType float).bank?
  | .extremum _, _, e | .clamp, _, e => e.ty.isNumeric = true
  | .floatFn _, _, _ | .abs, _, _ | .atan2, _, _ | .vectorAngle, _, _ => True

/-- What is known of a callee that was found for so many arguments. -/
structure Found (σ : Setting) (count : Nat) (callee : Callee) : Prop where
  onSelf : ∀ f, callee = .function f → f.kind ≠ .static → σ.selfClass?.isSome ∧ σ.Knows f
  params : ∀ f, callee = .function f → f.params.length = count
  extremum : ∀ op, callee = .extremum op → 2 ≤ count

/-- Arguments of a function that are each as they should be, and that are enough. -/
theorem Wants.params {args : List Expr} (hcount : f.params.length = args.length)
    (h : ∀ i e, args[i]? = some e → Wants (.function f) i e) : args.map Expr.ty = f.params := by
  refine List.ext_getElem (by simp [hcount]) fun i hi hi' => ?_
  have hi : i < args.length := by simpa using hi
  have hwants : (args[i]).ty = f.params.getD i .error := (h i _ (List.getElem?_eq_getElem hi)).1
  rw [List.getElem_map, hwants]
  simp [hi']

end Callee

namespace Typing

variable {σ : Setting} {s : Scope} {firm : Bool} {P : Nat → Expr → Prop} {n k : Nat}
  {span : Span} {x : Expr} {name : String} {args : List Expr} {float : Bool}

/-! ## Callees -/

theorem checkInvoke_ensures {onObject : Bool} :
    Ensures σ s (checkInvoke span onObject f count) fun _ =>
      (onObject = false → f.kind ≠ .static → σ.selfClass?.isSome) ∧ f.params.length = count := by
  refine .read ?_
  dsimp only
  refine .guarded fun hself => .guarded fun hfew => ?_
  split
  · exact .reject
  next hmany =>
    refine .pure ⟨fun hobject hkind => ?_, by omega⟩
    simpa [hobject, hkind, Option.isSome_iff_ne_none] using hself

theorem checkCount_ensures {least : Nat} :
    Ensures σ s (checkCount span name least most count) fun _ => least ≤ count := by
  unfold checkCount
  refine .guarded fun hleast => ?_
  have hleast : least ≤ count := by omega
  split
  · split
    · exact .reject
    · exact .pure hleast
  · exact .pure hleast

theorem knows_of_ownFunction (h : ownFunction? σ name = some f) : σ.Knows f := by
  unfold ownFunction? at h
  split at h
  next owner hfound =>
    cases h
    obtain ⟨cls, hcls, hfound⟩ := Option.bind_eq_some_iff.1 hfound
    exact ⟨cls, cls, name, owner, hcls, World.descends_of_findMember hfound, hfound⟩
  next => cases h

theorem found_of_languageFunction {rng : String} {least : Nat}
    (h : languageFunction? rng name = some (callee, least, most)) (hcount : least ≤ count) :
    callee.Found σ count := by
  unfold languageFunction? at h
  split at h <;> cases h <;> exact ⟨by simp, by simp, by simp_all⟩

theorem calleeOf_ensures {rng : Option String} :
    Ensures σ s (calleeOf span name rng count) (Callee.Found σ count) := by
  refine .read ?_
  dsimp only
  refine .guarded fun _ => ?_
  split
  next f hf =>
    refine .guarded fun _ => .bind checkInvoke_ensures fun _ hself => .pure ⟨?_, ?_, by simp⟩
    · rintro _ ⟨⟩ hkind
      exact ⟨hself.1 rfl hkind, knows_of_ownFunction hf⟩
    · rintro _ ⟨⟩
      exact hself.2
  split
  next => exact .bind checkCount_ensures fun _ _ => .pure ⟨by simp, by simp, by simp⟩
  split
  next =>
    refine .guarded fun _ => .guarded fun _ => ?_
    exact .pure ⟨by simp, by simp, by simp⟩
  split
  next hfound =>
    exact .bind checkCount_ensures fun _ hcount => .pure (found_of_languageFunction hfound hcount)
  next => exact .reject

theorem functionNamed_ensures {cls : ClassId} :
    Ensures σ s (functionNamed span cls name) fun f =>
      ∃ owner, σ.world.findMember cls name = some (.function f, owner) := by
  refine .read ?_
  split
  next f owner hfound => exact .pure ⟨owner, hfound⟩
  next => exact .reject

/-- A call without an object means a function that the class inherits. -/
theorem memberTarget_bears (hx : P n x) :
    Ensures σ s (memberTarget span x name) fun (object, f) =>
      (∀ e ∈ object, P n e ∧ e.ty.bank? = some .pointer) ∧
        (object = none → f.kind ≠ .static → σ.Knows f) := by
  refine .read ?_
  dsimp only
  split
  next cls hty =>
    refine .bind functionNamed_ensures fun f _ => .pure ?_
    have hb : x.ty.bank? = some .pointer := by rw [hty]; rfl
    by_cases hkind : f.kind = .static <;> simp [hkind, hx, hb]
  next cls hty =>
    refine .bind functionNamed_ensures ?_
    rintro f ⟨owner, hfound⟩
    split
    next hstatic =>
      refine .pure ⟨by simp, fun _ hkind => ?_⟩
      simp only [hkind, decide_false, Bool.false_or, Option.any_eq_true] at hstatic
      obtain ⟨k, hk, hdescends⟩ := hstatic
      exact ⟨k, cls, name, owner, hk, hdescends, hfound⟩
    next => exact .reject
  next => exact .reject

/-! ## Arguments -/

theorem invokeArgument_bears (h : Pliant σ s firm P) (hx : P n x) :
    Ensures σ s (invokeArgument f index span x) fun e =>
      P n e ∧ Callee.Wants (.function f) index e :=
  (convert_bears h hx _ _).mono fun _ he => ⟨he.1, he.2.1, he.2.1 ▸ he.2.2⟩

section Language

variable (h : Hereditary σ s firm P)

include h

theorem specialArgument_bears {number : Int32} (hx : P n x) :
    Ensures σ s (specialArgument number index x) fun e => P n e ∧ e.ty.bank? = some .int := by
  unfold specialArgument
  split
  · split
    next hname =>
      simp only [Bool.and_eq_true, decide_eq_true_eq] at hname
      exact .pure ⟨hx, by rw [hname.1]; rfl⟩
    next => exact .reject
  · split
    next hb => exact .pure ⟨hx, hb⟩
    next => exact (toIntArgument_bears h hx).mono fun _ he => ⟨he.1, Ty.bank_of_isWord he.2.1⟩
    next => exact .reject

theorem numberArgument_bears (hx : P n x) :
    Ensures σ s (numberArgument float span x) fun e =>
      P n e ∧ e.ty.bank? = (numberType float).bank? := by
  cases float with
  | true => exact (toFloat_bears h hx).mono fun _ he => ⟨he.1, Ty.bank_of_isFloat he.2.1⟩
  | false => exact (toIntArgument_bears h hx).mono fun _ he => ⟨he.1, Ty.bank_of_isWord he.2.1⟩

/-! ## Functions of the language -/

theorem floatFnOf_bears {fn : FloatFn} (hx : P n x) : Ensures σ s (floatFnOf span fn x) (P n) := by
  unfold floatFnOf
  split
  · exact .reject
  split
  · exact .pure (h.fresh _ (Constant.fair_float _))
  · exact .bind (toFloat_bears h hx) fun _ he => .pure (h.overOne (.floatFn he.2.1) rfl he.1)

theorem atan2Of_bears {y : Expr} (hy : P n y) (hx : P k x) :
    Ensures σ s (atan2Of span y x) (P (n + k)) := by
  unfold atan2Of
  split
  · exact .reject
  split
  · exact .pure (h.fresh _ (Constant.fair_float _))
  · exact .bind (toFloat_bears h hy) fun _ hy => .bind (toFloat_bears h hx) fun _ hx =>
      .pure (h.overBoth (.atan2 hy.2.1 hx.2.1) rfl hy.1 hx.1)

end Language

theorem argumentFor_bears (h : Pliant σ s firm P) (hx : P n x) :
    Ensures σ s (argumentFor callee index span x) fun e => P n e ∧ callee.Wants index e := by
  cases callee with
  | function f => exact invokeArgument_bears h hx
  | special number => exact specialArgument_bears h.toHereditary hx
  | random float rng | randomPick float rng | random2 rng =>
    exact numberArgument_bears h.toHereditary hx
  | extremum op | clamp =>
    unfold argumentFor extremumArgument
    dsimp only
    split
    next hnum => exact .pure ⟨hx, hnum⟩
    next => exact .reject
  | floatFn fn | abs | atan2 | vectorAngle => exact .pure ⟨hx, trivial⟩

/-! ### Extrema -/

/-- Numbers in the bank that their extremum is taken in. -/
structure Numbers (P : Nat → Expr → Prop) (n : Nat) (float : Bool) (args : List Expr) : Prop where
  shared : Shared P n args
  types : ∀ e ∈ args, e.ty.isNumeric = true ∧ e.ty.isFloat = float

/-- A best constant is one of them. -/
theorem bestOf_mem (op : Extremum) (float : Bool) (first : Constant) (others : List Constant) :
    bestOf op float first others ∈ first :: others := by
  unfold bestOf
  induction others generalizing first with
  | nil => simp
  | cons v rest ih =>
    rw [List.foldl_cons]
    split
    · exact List.mem_cons_of_mem _ (ih v)
    · rcases List.mem_cons.1 (ih first) with h | h
      · simp [h]
      · simp [h]

theorem kept_sublist (p : Expr → Bool) (args : List Expr) :
    (args.takeWhile p ++ (args.dropWhile p).filter p).Sublist args := by
  have h := (List.Sublist.refl (args.takeWhile p)).append
    (List.filter_sublist (p := p) (l := args.dropWhile p))
  rwa [List.takeWhile_append_dropWhile] at h

theorem collapseConstants_ne_nil (h : args ≠ []) : collapseConstants span op float args ≠ [] := by
  unfold collapseConstants
  dsimp only
  split
  · exact h
  · simp

section Extrema

variable (h : Hereditary σ s firm P)

include h

theorem toFloats_bears (hargs : Shared P n args) :
    Ensures σ s (args.mapM fun x => toFloat x.span x) fun args' =>
      Numbers P n true args' ∧ args'.length = args.length := by
  induction hargs with
  | nil => exact .pure ⟨⟨.nil, by simp⟩, rfl⟩
  | cons he _ hsum ih =>
    rw [List.mapM_cons]
    refine .bind (toFloat_bears h he) fun e' he' => .bind ih fun rest' hrest =>
      .pure ⟨⟨.cons he'.1 hrest.1.shared hsum, ?_⟩, by simp [hrest.2]⟩
    exact List.forall_mem_cons.2 ⟨⟨Ty.isNumeric_of_isFloat he'.2.1, he'.2.1⟩, hrest.1.types⟩

variable (htyped : ∀ n e, P n e → e.InType)

include htyped

theorem bestConstant_bears {first : Constant} {others : List Constant}
    (hargs : Numbers P n float args) (hconstants : args.filterMap Expr.constant? = first :: others)
    {c : Constant} (hc : c = if float then bestOf op float first others
      else .int (bestOf op float first others).toInt) :
    P 0 (.ofConstant span c) ∧ c.ty.isNumeric = true ∧ c.ty.isFloat = float := by
  subst hc
  cases float with
  | false => exact ⟨h.fresh _ (Constant.fair_int _), rfl, rfl⟩
  | true =>
    -- The best of some floats is a constant among the arguments.
    have hbest := bestOf_mem op true first others
    rw [← hconstants, List.mem_filterMap] at hbest
    obtain ⟨e, he, hconst⟩ := hbest
    obtain ⟨k, -, hP⟩ := hargs.shared.mem e he
    obtain ⟨hnum, hfloat⟩ := hargs.types e he
    rw [htyped k e hP _ hconst] at hnum hfloat
    refine ⟨h.constant [e] rfl (by simp [Ty.bank_of_isFloat hfloat]) (.one hP) fun _ hfair => ?_,
      hnum, hfloat⟩
    exact (hfair e (by simp) _ hconst).2

theorem collapseConstants_bears (hargs : Numbers P n float args) :
    Numbers P n float (collapseConstants span op float args) := by
  unfold collapseConstants
  dsimp only
  split
  next => exact hargs
  next first others hconstants =>
    obtain ⟨hbest, htypes⟩ := bestConstant_bears h htyped hargs hconstants rfl
    rw [List.append_assoc]
    refine ⟨(hargs.shared.sublist (kept_sublist _ args)).insert hbest, fun e he => ?_⟩
    simp only [List.mem_append, List.mem_filter, List.cons_append, List.nil_append,
      List.mem_cons] at he
    rcases he with he | rfl | ⟨he, -⟩
    · exact hargs.types e (List.takeWhile_subset _ he)
    · exact htypes
    · exact hargs.types e (List.dropWhile_subset _ he)

theorem extremumAmong_bears (hne : args ≠ []) (hargs : Numbers P n float args) :
    P n (extremumAmong span op float args) ∧
      (extremumAmong span op float args).ty.isNumeric = true := by
  have hkept : Numbers P n float (collapseConstants span op float args) :=
    collapseConstants_bears h htyped hargs
  have hne : collapseConstants span op float args ≠ [] := collapseConstants_ne_nil hne
  unfold extremumAmong
  split
  next only heq =>
    rw [heq] at hkept
    exact ⟨h.each hkept.shared (by simp), (hkept.types only (by simp)).1⟩
  next hmany =>
    have hlength : 2 ≤ (collapseConstants span op float args).length := by
      rcases hlist : collapseConstants span op float args with _ | ⟨e, _ | ⟨e', rest⟩⟩
      · exact absurd hlist hne
      · exact absurd hlist (hmany e)
      · simp
    refine ⟨h.node (.extremum hlength hkept.types) hkept.shared, ?_⟩
    cases float <;> rfl

theorem extremumOf_bears (hne : args ≠ []) (hargs : Shared P n args)
    (hnum : ∀ e ∈ args, e.ty.isNumeric = true) :
    Ensures σ s (extremumOf span op args) fun e => P n e ∧ e.ty.isNumeric = true := by
  unfold extremumOf
  split
  next =>
    refine .bind (toFloats_bears h hargs) fun args' hargs => .pure ?_
    exact extremumAmong_bears h htyped
      (List.ne_nil_of_length_pos (by simp [hargs.2, List.length_pos_iff, hne])) hargs.1
  next hfloat =>
    simp only [List.any_eq_true, not_exists, not_and, Bool.not_eq_true] at hfloat
    exact .pure (extremumAmong_bears h htyped hne
      ⟨hargs, fun e he => ⟨hnum e he, hfloat e he⟩⟩)

/-! ## Results -/

theorem resultOf_bears (hfound : callee.Found σ args.length) (hargs : Shared P n args)
    (hwants : ∀ i e, args[i]? = some e → callee.Wants i e) :
    Ensures σ s (resultOf span callee args) (P n) := by
  have hall : ∀ e ∈ args, ∃ i, callee.Wants i e := by
    intro e he
    obtain ⟨i, hi⟩ := List.getElem?_of_mem he
    exact ⟨i, hwants i e hi⟩
  unfold resultOf
  split
  next f =>
    refine .pure (h.node (.invoke (by simp) ?_ (fun e he => ?_) fun _ => hfound.onSelf f rfl) hargs)
    · exact Callee.Wants.params (hfound.params f rfl) hwants
    · obtain ⟨_, -, hvoid⟩ := hall e he
      exact hvoid
  next number =>
    refine .pure (h.node (.special fun e he => ?_) hargs)
    obtain ⟨_, hb⟩ := hall e he
    exact hb
  next fn x => exact floatFnOf_bears h (h.each hargs (by simp))
  next float rng low high =>
    exact .pure (h.node (.random (hwants 0 low rfl) (hwants 1 high rfl)) hargs)
  next float rng =>
    refine .pure (h.node (.randomPick fun e he => ?_) hargs)
    obtain ⟨_, hb⟩ := hall e he
    exact hb
  next rng => exact .pure (h.overOne (.random2 rfl) rfl (h.fresh _ (Constant.fair_int (-1))))
  next rng mask => exact .pure (h.node (.random2 (hwants 0 mask rfl)) hargs)
  next op =>
    have hlength := hfound.extremum op rfl
    have hne : args ≠ [] := List.ne_nil_of_length_pos (by omega)
    refine (extremumOf_bears h htyped hne hargs fun e he => ?_).mono fun _ he => he.1
    obtain ⟨_, hnum⟩ := hall e he
    exact hnum
  next x low high =>
    have hnum : ∀ e ∈ [x, low, high], e.ty.isNumeric = true := by
      intro e he
      obtain ⟨_, hnum⟩ := hall e he
      exact hnum
    simp only [List.forall_mem_cons] at hnum
    obtain ⟨hx, hlow, hhigh, -⟩ := hnum
    obtain _ | ⟨hPx, _ | ⟨hPlow, hPhigh, hrest⟩, hsum⟩ := hargs
    exact .bind (extremumOf_bears h htyped (by simp) (.both hPx hPlow) (by simpa using ⟨hx, hlow⟩))
      fun raised hraised => (extremumOf_bears h htyped (by simp)
        (.cons hraised.1 hPhigh (by omega)) (by simpa using ⟨hraised.2, hhigh⟩)).mono
          fun _ he => he.1
  next x => exact absoluteOf_bears h (h.each hargs (by simp))
  next y x =>
    obtain ⟨_, _, hy, hx, hsum⟩ := hargs.pair
    exact (atan2Of_bears h hy hx).mono fun _ he => h.more he hsum
  next x y =>
    obtain ⟨_, _, hx, hy, hsum⟩ := hargs.pair
    exact (atan2Of_bears h hy hx).mono fun _ he => h.more he (by omega)
  next => exact .reject

end Extrema

end Typing

end ActorScript
