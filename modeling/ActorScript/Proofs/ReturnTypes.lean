import ActorScript.Proofs.Typing.Run
import Mathlib.Data.List.MinMax

/-! # The returns of a function

Each return is only checked against the longest list of types that an earlier one had. That is
enough: a list of returns is accepted exactly if any two of them go together, so the order in which
they stand has no say.
-/

namespace ActorScript

/-- Returns that can stand in one function: either none of them has a value, or all have and of any
two the types of one begin those of the other. -/
def Concordant (returns : List (List Ty)) : Prop :=
  (∀ p ∈ returns, p = []) ∨
    (∀ p ∈ returns, p ≠ []) ∧ ∀ p ∈ returns, ∀ q ∈ returns, p <+: q ∨ q <+: p

instance (returns : List (List Ty)) : Decidable (Concordant returns) :=
  inferInstanceAs (Decidable (_ ∨ _ ∧ _))

namespace Concordant

variable {returns : List (List Ty)} {p types : List Ty}

theorem perm {others : List (List Ty)} (h : Concordant returns) (hperm : others.Perm returns) :
    Concordant others :=
  h.imp (fun h p hp => h p (hperm.mem_iff.1 hp)) fun h =>
    ⟨fun p hp => h.1 p (hperm.mem_iff.1 hp), fun p hp q hq =>
      h.2 p (hperm.mem_iff.1 hp) q (hperm.mem_iff.1 hq)⟩

theorem left {others : List (List Ty)} (h : Concordant (returns ++ others)) :
    Concordant returns :=
  h.imp (fun h p hp => h p (by simp [hp])) fun h =>
    ⟨fun p hp => h.1 p (by simp [hp]), fun p hp q hq => h.2 p (by simp [hp]) q (by simp [hq])⟩

theorem singleton (types : List Ty) : Concordant [types] := by
  by_cases h : types = [] <;> simp [Concordant, h]

theorem comparable (h : Concordant returns) {q : List Ty} (hp : p ∈ returns) (hq : q ∈ returns) :
    p <+: q ∨ q <+: p := by
  rcases h with h | h
  · simp [h p hp]
  · exact h.2 p hp q hq

/-- All returns begin the longest one. -/
theorem prefix_argmax (h : Concordant returns) (hp : p ∈ returns.argmax List.length)
    {q : List Ty} (hq : q ∈ returns) : q <+: p := by
  rcases h.comparable hq (List.argmax_mem hp) with hqp | hpq
  · exact hqp
  · have hle : q.length ≤ p.length := List.le_of_mem_argmax hq hp
    exact (hpq.eq_of_length_le hle) ▸ List.prefix_rfl

/-- One more return goes with all the others exactly if it goes with the longest. -/
theorem concat_iff (h : Concordant returns) (hp : p ∈ returns.argmax List.length) :
    Concordant (returns ++ [types]) ↔ (p = [] ↔ types = []) ∧ (p <+: types ∨ types <+: p) := by
  have hmem := List.argmax_mem hp
  constructor
  · intro h'
    refine ⟨?_, h'.comparable (by simp [hmem]) (by simp)⟩
    rcases h' with h' | h'
    · simp [h' p (by simp [hmem]), h' types (by simp)]
    · simp [h'.1 p (by simp [hmem]), h'.1 types (by simp)]
  · rintro ⟨hempty, hcomparable⟩
    have hwith : ∀ q ∈ returns, q <+: types ∨ types <+: q := by
      intro q hq
      have hqp := h.prefix_argmax hp hq
      rcases hcomparable with hpt | htp
      · exact .inl (hqp.trans hpt)
      · exact List.prefix_or_prefix_of_prefix hqp htp
    have hall : (∀ q ∈ returns, q = []) ∨
        (∀ q ∈ returns, q ≠ []) ∧ ∀ q ∈ returns, ∀ q' ∈ returns, q <+: q' ∨ q' <+: q := h
    rcases hall with h | h
    · refine .inl fun q hq => ?_
      rcases List.mem_append.1 hq with hq | hq
      · exact h q hq
      · rw [List.mem_singleton.1 hq]
        exact hempty.1 (h p hmem)
    · refine .inr ⟨?_, ?_⟩
      · intro q hq
        rcases List.mem_append.1 hq with hq | hq
        · exact h.1 q hq
        · rw [List.mem_singleton.1 hq]
          exact fun htypes => h.1 p hmem (hempty.2 htypes)
      · intro q hq q' hq'
        rcases List.mem_append.1 hq with hq | hq <;> rcases List.mem_append.1 hq' with hq' | hq'
        · exact h.2 q hq q' hq'
        · rw [List.mem_singleton.1 hq']
          exact hwith q hq
        · rw [List.mem_singleton.1 hq]
          exact (hwith q' hq').symm
        · rw [List.mem_singleton.1 hq, List.mem_singleton.1 hq']
          exact .inl List.prefix_rfl

end Concordant

/-! ## One return -/

/-- A return is joined to those before exactly if it has a value as they do and its types begin
theirs or theirs begin its types; the longer of the two stays. -/
theorem Scope.joinReturn_eq_some_iff {p types joined : List Ty} :
    joinReturn (some p) types = some joined ↔
      ((p = [] ↔ types = []) ∧ (p <+: types ∨ types <+: p)) ∧
        joined = if p.length < types.length then types else p := by
  have hempty : (p.isEmpty = types.isEmpty) ↔ (p = [] ↔ types = []) := by
    rw [Bool.eq_iff_iff, List.isEmpty_iff, List.isEmpty_iff]
  simp only [joinReturn]
  by_cases hle : types.length ≤ p.length
  · have hprefix : p <+: types ∨ types <+: p ↔ types <+: p :=
      ⟨fun h => h.elim (fun h => (h.eq_of_length_le hle) ▸ List.prefix_rfl) id, .inr⟩
    rw [if_pos hle, if_neg (Nat.not_lt.2 hle), hprefix, ← hempty]
    simp only [Option.ite_none_right_eq_some, Bool.and_eq_true, beq_iff_eq,
      List.isPrefixOf_iff_prefix, Option.some.injEq]
    rw [eq_comm (a := types.isEmpty), eq_comm (a := p)]
  · have hprefix : p <+: types ∨ types <+: p ↔ p <+: types :=
      ⟨fun h => h.elim id fun h => absurd h.length_le hle, .inl⟩
    rw [if_neg hle, if_pos (Nat.lt_of_not_le hle), hprefix, ← hempty]
    simp only [Option.ite_none_right_eq_some, Bool.and_eq_true, beq_iff_eq,
      List.isPrefixOf_iff_prefix, Option.some.injEq]
    rw [eq_comm (a := types)]

namespace Typing

variable {σ : Setting} {s : Scope}

theorem runFrom_noteReturn (span : Span) (types : List Ty) :
    (noteReturn span types).runFrom σ s = match Scope.joinReturn s.returnTypes types with
      | some joined => (.ok (), { s with returnTypes := some joined })
      | none => (.error { fault := .returnTypes, span }, s) := by
  unfold noteReturn
  rw [runFrom_bind, runFrom_get]
  dsimp only
  unfold Scope.noteReturn?
  cases Scope.joinReturn s.returnTypes types <;> rfl

/-- An accepted return, given that the longest one so far is known. -/
theorem runFrom_noteReturn_ok_iff {returns : List (List Ty)} (hreturns : Concordant returns)
    (hs : s.returnTypes = returns.argmax List.length) (span : Span) (types : List Ty)
    (s' : Scope) :
    (noteReturn span types).runFrom σ s = (.ok (), s') ↔
      Concordant (returns ++ [types]) ∧
        s' = { s with returnTypes := (returns ++ [types]).argmax List.length } := by
  rw [runFrom_noteReturn, hs, List.argmax_concat]
  cases hlongest : returns.argmax List.length with
  | none =>
    obtain rfl := List.argmax_eq_none.1 hlongest
    simp [Scope.joinReturn, Concordant.singleton, eq_comm]
  | some p =>
    rw [hreturns.concat_iff hlongest]
    cases hjoin : Scope.joinReturn (some p) types with
    | none =>
      have hno (joined : List Ty) := mt Scope.joinReturn_eq_some_iff.2 (by simp [hjoin] : ¬
        Scope.joinReturn (some p) types = some joined)
      simpa using fun h h' => absurd ⟨⟨h, h'⟩, rfl⟩ (hno _)
    | some joined =>
      obtain ⟨hok, rfl⟩ := Scope.joinReturn_eq_some_iff.1 hjoin
      by_cases hlt : p.length < types.length <;> simp [hok, hlt, eq_comm]

/-! ## All returns of a function -/

/-- Notes the returns of a function one after the other, up to the first that is rejected. -/
def noteReturns (returns : List (Span × List Ty)) : Typing Unit :=
  forM returns fun r => noteReturn r.1 r.2

theorem noteReturns_concat (returns : List (Span × List Ty)) (r : Span × List Ty) :
    noteReturns (returns ++ [r]) = noteReturns returns >>= fun _ => noteReturn r.1 r.2 := by
  simp only [noteReturns, List.forM_append, List.forM_cons, List.forM_nil]
  exact congrArg _ (funext fun _ => bind_pure _)

/-- Returns are accepted exactly if they are concordant, and the longest is left. -/
theorem runFrom_noteReturns_ok_iff (hs : s.returnTypes = none) (returns : List (Span × List Ty))
    (s' : Scope) :
    (noteReturns returns).runFrom σ s = (.ok (), s') ↔
      Concordant (returns.map Prod.snd) ∧
        s' = { s with returnTypes := (returns.map Prod.snd).argmax List.length } := by
  -- The invariant is the statement itself: what is left is the longest return so far.
  induction returns using List.reverseRecOn generalizing s' with
  | nil =>
    have hnone : { s with returnTypes := none } = s := by rw [← hs]
    simp [noteReturns, Concordant, hnone, eq_comm]
  | append_singleton returns r ih =>
    rw [noteReturns_concat, runFrom_bind, List.map_append]
    by_cases hok : Concordant (returns.map Prod.snd)
    · rw [(ih _).2 ⟨hok, rfl⟩]
      exact runFrom_noteReturn_ok_iff hok rfl r.1 r.2 s'
    · have hno : ¬ Concordant (returns.map Prod.snd ++ [r].map Prod.snd) :=
        fun h => hok h.left
      rcases hrun : (noteReturns returns).runFrom σ s with ⟨r | ⟨⟩, s1⟩
      · simp only [hno, false_and, iff_false]
        exact fun h => by simp at h
      · exact absurd ((ih s1).1 hrun).1 hok

/-- Whether a function may have all these returns does not depend on their order: it may exactly if
they are concordant, and then the types that are left are those of the longest. A return that is
rejected changes nothing. -/
theorem returns_accepted_in_any_order (σ : Setting) (s : Scope) (hs : s.returnTypes = none)
    (returns : List (Span × List Ty)) :
    ((∃ s', (noteReturns returns).runFrom σ s = (.ok (), s')) ↔
        ∀ others, others.Perm returns →
          ∃ s', (noteReturns others).runFrom σ s = (.ok (), s')) ∧
      ((∃ s', (noteReturns returns).runFrom σ s = (.ok (), s')) ↔
        Concordant (returns.map Prod.snd)) ∧
      (∀ s', (noteReturns returns).runFrom σ s = (.ok (), s') →
        s' = { s with returnTypes := (returns.map Prod.snd).argmax List.length }) ∧
      ∀ s₁ span types r s', (noteReturn span types).runFrom σ s₁ = (.error r, s') → s' = s₁ := by
  have haccepts (others : List (Span × List Ty)) :
      (∃ s', (noteReturns others).runFrom σ s = (.ok (), s')) ↔
        Concordant (others.map Prod.snd) := by
    simp [runFrom_noteReturns_ok_iff hs]
  refine ⟨⟨?_, fun h => h returns (.refl _)⟩, haccepts returns, ?_, ?_⟩
  · intro h others hperm
    exact (haccepts others).2 (((haccepts returns).1 h).perm (hperm.map _))
  · intro s' h
    exact ((runFrom_noteReturns_ok_iff hs returns s').1 h).2
  · intro s₁ span types r s' h
    rw [runFrom_noteReturn] at h
    cases hjoin : Scope.joinReturn s₁.returnTypes types with
    | none =>
      rw [hjoin] at h
      exact (Prod.mk.inj h).2.symm
    | some joined =>
      rw [hjoin] at h
      simp at h

/-- A function whose longest return stands between two shorter ones. -/
theorem returns_accepted_around_longest :
    ({} : Scope).returnTypes = none ∧
      (noteReturns [(⟨0, 1⟩, [.int]), (⟨2, 3⟩, [.int, .double]), (⟨4, 5⟩, [.int])]).runFrom
        (.ofOptions {} {} true) {} = (.ok (), { returnTypes := some [.int, .double] }) := by
  refine ⟨rfl, ?_⟩
  have h := returns_accepted_in_any_order (.ofOptions {} {} true) {} rfl
    [(⟨0, 1⟩, [.int]), (⟨2, 3⟩, [.int, .double]), (⟨4, 5⟩, [.int])]
  obtain ⟨s', hs'⟩ := h.2.1.2 (by decide)
  rw [hs', h.2.2.1 s' hs']
  rfl

end Typing

end ActorScript
