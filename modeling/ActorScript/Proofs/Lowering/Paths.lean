import ActorScript.Proofs.Lowering.Flow

/-! # Ways through code

Control goes from position to position. Closed code is left only at its end, whatever stands
before and behind it. A position is dry for a register if control can come to it, from where it
started, before that register is written.
-/

namespace ActorScript

variable {code : List Instr} {s : Nat}

/-- Control at a position can come to another. -/
inductive Leads (code : List Instr) : Nat → Nat → Prop
  | next {p : Nat} {i : Instr} : code[p]? = some i → i.op ≠ .jmp → i.op ≠ .ijmp →
      Leads code p (p + 1)
  | skip {p : Nat} {i : Instr} : code[p]? = some i → i.op.skips = true → Leads code p (p + 2)
  | jump {p q : Nat} {offset : Int} : code[p]? = some (.asbx .jmp (.imm 0) offset) →
      (q : Int) = p + 1 + offset → Leads code p q
  | pick {p count n k : Nat} : Picks code p count n → k < count → Leads code (p + 4) (p + 5 + k)

/-- A number is drawn for one table only. -/
theorem Picks.count_eq {q count count' n n' : Nat} (h : Picks code q count n)
    (h' : Picks code q count' n') : count = count' := by
  have hhigh := h.high.symm.trans h'.high
  simp only [Option.some.injEq, Instr.asbx.injEq, true_and] at hhigh
  omega

section Segments

variable {pre seg post : List Instr} {p q : Nat}

theorem getElem?_segment {k : Nat} (hk : k < seg.length) :
    (pre ++ seg ++ post)[pre.length + k]? = seg[k]? := by
  rw [List.append_assoc, List.getElem?_append_right (by omega), Nat.add_sub_cancel_left,
    List.getElem?_append_left hk]

/-- From closed code, control comes to closed code or to its end. What stands behind it does not
matter. -/
theorem Closed.leads (hc : Closed seg) (h : Leads (pre ++ seg ++ post) p q)
    (hlow : pre.length ≤ p) (hhigh : p < pre.length + seg.length) :
    (pre.length ≤ q ∧ q ≤ pre.length + seg.length) ∧ Leads (pre ++ seg) p q := by
  obtain ⟨k, rfl⟩ := Nat.exists_eq_add_of_le hlow
  have hk : k < seg.length := by omega
  have hat : (pre ++ seg ++ post)[pre.length + k]? = seg[k]? := getElem?_segment hk
  have hown {i : Instr} (hi : seg[k]? = some i) : (pre ++ seg)[pre.length + k]? = some i :=
    getElem?_behind hi
  generalize hp : pre.length + k = p at h hat hown
  cases h with
  | next hi hjmp hijmp =>
    rw [hat] at hi
    exact ⟨⟨by omega, by omega⟩, .next (hown hi) hjmp hijmp⟩
  | skip hi hskips =>
    rw [hat] at hi
    have := (hc k _ hi).skip hskips
    exact ⟨⟨by omega, by omega⟩, .skip (hown hi) hskips⟩
  | jump hi hq =>
    rw [hat] at hi
    obtain ⟨offset, heq, -, hstart, hend⟩ := (hc k _ hi).jump rfl
    cases heq
    exact ⟨⟨by omega, by omega⟩, .jump (hown hi) hq⟩
  | @pick p' count n j hpicks hj =>
    have hi := hpicks.pick
    rw [hat] at hi
    obtain ⟨q', count', n', hk', hpicks'⟩ := (hc k _ hi).pick rfl
    obtain rfl : p' = pre.length + q' := by omega
    have hpicks'' : Picks (pre ++ seg) (pre.length + q') count' n' := hpicks'.behind
    obtain rfl := hpicks.count_eq (hpicks''.mono (List.prefix_append _ _))
    obtain ⟨offset, ho⟩ := hpicks'.table j hj
    have := (List.getElem?_eq_some_iff.1 ho).1
    exact ⟨⟨by omega, by omega⟩, .pick hpicks'' hj⟩

theorem Leads.of_jump {offset : Int} (h : Leads code p q)
    (hp : code[p]? = some (.asbx .jmp (.imm 0) offset)) : (q : Int) = p + 1 + offset := by
  cases h with
  | next hi hjmp =>
    cases hp.symm.trans hi
    exact absurd rfl hjmp
  | skip hi hskips =>
    cases hp.symm.trans hi
    cases hskips
  | jump hi hq =>
    cases hp.symm.trans hi
    exact hq
  | pick hpicks => cases hp.symm.trans hpicks.pick

theorem Leads.lt (h : Leads code p q) : p < code.length := by
  cases h with
  | next hi | skip hi | jump hi => exact (List.getElem?_eq_some_iff.1 hi).1
  | pick hpicks => exact (List.getElem?_eq_some_iff.1 hpicks.pick).1

end Segments

/-! ## Registers that are not written on the way -/

/-- Control that started at one position can be at another before a register is written. -/
inductive Dry (code : List Instr) (r : Bank × Nat) (start : Nat) : Nat → Prop
  | start : Dry code r start start
  | step {p q : Nat} : Dry code r start p → (∀ i, code[p]? = some i → i.target? ≠ some r) →
      Leads code p q → Dry code r start q

section Dry

variable {pre seg post : List Instr} {r : Bank × Nat} {q : Nat}

/-- Closed code that is not left before a register is written holds those up that have not
written it. -/
theorem Dry.lt_of_filled (hc : Closed seg)
    (hf : ¬ Dry (pre ++ seg) r pre.length (pre.length + seg.length))
    (h : Dry (pre ++ seg ++ post) r pre.length q) :
    pre.length ≤ q ∧ q < pre.length + seg.length := by
  have hlt {k : Nat} (hk : Dry (pre ++ seg) r pre.length k) (hle : k ≤ pre.length + seg.length) :
      k < pre.length + seg.length :=
    Nat.lt_of_le_of_ne hle fun heq => hf (heq ▸ hk)
  have hall : pre.length ≤ q ∧ q < pre.length + seg.length ∧ Dry (pre ++ seg) r pre.length q := by
    induction h with
    | start => exact ⟨Nat.le_refl _, hlt .start (by omega), .start⟩
    | step _ hdry hleads ih =>
      obtain ⟨hlow, hhigh, hp⟩ := ih
      obtain ⟨⟨hlow', hhigh'⟩, hleads'⟩ := hc.leads hleads hlow hhigh
      have hq := hp.step (fun i hi => hdry i (getElem?_of_extends (List.prefix_append _ _) hi))
        hleads'
      exact ⟨hlow', hlt hq hhigh', hq⟩
  exact ⟨hall.1, hall.2.1⟩

/-- Whoever comes past closed code starts anew at its end. -/
theorem Dry.behind (hc : Closed seg) (h : Dry (pre ++ seg ++ post) r pre.length q) :
    q < pre.length + seg.length ∨
      Dry (pre ++ seg ++ post) r (pre.length + seg.length) q := by
  have hall : (pre.length ≤ q ∧ q < pre.length + seg.length) ∨
      Dry (pre ++ seg ++ post) r (pre.length + seg.length) q := by
    induction h with
    | start =>
      rcases Nat.eq_zero_or_pos seg.length with hzero | hpos
      · rw [hzero]
        exact .inr .start
      · exact .inl (by omega)
    | step _ hdry hleads ih =>
      rcases ih with ⟨hlow, hhigh⟩ | hp
      · obtain ⟨⟨hlow', hhigh'⟩, -⟩ := hc.leads hleads hlow hhigh
        rcases Nat.lt_or_eq_of_le hhigh' with hlt | rfl
        · exact .inl ⟨hlow', hlt⟩
        · exact .inr .start
      · exact .inr (hp.step hdry hleads)
  exact hall.imp_left And.right

/-- Closed code does not lead back before it. -/
theorem Dry.earlier (hc : Closed seg) (hc' : Closed post)
    (h : Dry (pre ++ seg ++ post) r pre.length q) (hq : q < pre.length + seg.length) :
    Dry (pre ++ seg) r pre.length q := by
  have hall : (pre.length ≤ q ∧ q ≤ pre.length + seg.length ∧ Dry (pre ++ seg) r pre.length q) ∨
      pre.length + seg.length ≤ q := by
    clear hq
    induction h with
    | start => exact .inl ⟨Nat.le_refl _, by omega, .start⟩
    | @step p q hp' hdry hleads ih =>
      by_cases hhigh : p < pre.length + seg.length
      · obtain ⟨hlow, -, hp⟩ := ih.resolve_right (by omega)
        obtain ⟨⟨hlow', hhigh'⟩, hleads'⟩ := hc.leads hleads hlow hhigh
        exact .inl ⟨hlow', hhigh', hp.step (fun i hi =>
          hdry i (getElem?_of_extends (List.prefix_append _ _) hi)) hleads'⟩
      · have hlen := hleads.lt
        have hleads' : Leads (pre ++ seg ++ post ++ []) p q := by simpa using hleads
        rw [List.length_append] at hlen
        have hback := hc'.leads hleads' (by rw [List.length_append]; omega) (by omega)
        rw [List.length_append] at hback
        exact .inr hback.1.1
  exact (hall.resolve_right (by omega)).2.2

/-- An instruction that writes the register holds everyone up. -/
theorem Dry.eq_of_write {i : Instr} (hi : code[s]? = some i) (htarget : i.target? = some r)
    (h : Dry code r s q) : q = s := by
  induction h with
  | start => rfl
  | step _ hdry _ ih =>
    subst ih
    exact absurd htarget (hdry i hi)

/-- From the end, control comes nowhere. -/
theorem Dry.eq_of_end (hs : code.length ≤ s) (h : Dry code r s q) : q = s := by
  induction h with
  | start => rfl
  | step _ _ hleads ih =>
    subst ih
    exact absurd hleads.lt (by omega)

/-- There is no way on from a choice of nothing. -/
theorem Dry.eq_of_pick {p n : Nat} (hp : Picks code p 0 n) (h : Dry code r (p + 4) q) :
    q = p + 4 := by
  induction h with
  | start => rfl
  | step _ _ hleads ih =>
    subst ih
    have hat := hp.pick
    generalize hs : p + 4 = s at hleads hat
    cases hleads with
    | next hi _ hijmp =>
      cases hat.symm.trans hi
      exact absurd rfl hijmp
    | skip hi hskips =>
      cases hat.symm.trans hi
      cases hskips
    | jump hi => cases hat.symm.trans hi
    | pick hpicks hk =>
      obtain rfl : p = _ := Nat.add_right_cancel hs
      rw [hpicks.count_eq hp] at hk
      omega

/-- A test with a write for each outcome, one of them behind a jump over the other. -/
theorem Dry.of_fork (test yes no : Instr) (htest : code[s]? = some test)
    (hop : test.op ≠ .jmp ∧ test.op ≠ .ijmp) (hjump : code[s + 1]? = some (.asbx .jmp (.imm 0) 2))
    (hyes : code[s + 2]? = some yes) (hno : code[s + 4]? = some no)
    (hwrites : yes.target? = some r ∧ no.target? = some r) (h : Dry code r s q) :
    q ≤ s + 2 ∨ q = s + 4 := by
  have hall : q = s ∨ q = s + 1 ∨ q = s + 2 ∨ q = s + 4 := by
    induction h with
    | start => exact .inl rfl
    | step _ hdry hleads ih =>
      rcases ih with rfl | rfl | rfl | rfl
      · cases hleads with
        | next => exact .inr (.inl rfl)
        | skip => exact .inr (.inr (.inl rfl))
        | jump hi =>
          cases htest.symm.trans hi
          exact absurd rfl hop.1
        | pick hpicks =>
          cases htest.symm.trans hpicks.pick
          exact absurd rfl hop.2
      · have := hleads.of_jump hjump
        exact .inr (.inr (.inr (by omega)))
      · exact absurd hwrites.1 (hdry yes hyes)
      · exact absurd hwrites.2 (hdry no hno)
  omega

end Dry

/-! ## Jumps that get another target -/

section Retarget

variable {code : List Instr} {k : Nat} {offset new : Int}

theorem modify_withOffset_modify (hk : code[k]? = some (.asbx .jmp (.imm 0) offset)) :
    (code.modify k (·.withOffset new)).modify k (·.withOffset offset) = code := by
  have hnew : (code.modify k (·.withOffset new))[k]? = some (.asbx .jmp (.imm 0) new) := by
    rw [getElem?_withOffset hk, if_pos rfl]
  apply List.ext_getElem?
  intro p
  rw [getElem?_withOffset hnew, getElem?_withOffset hk]
  by_cases hp : p = k
  · rw [if_pos hp, hp, hk]
  · rw [if_neg hp, if_neg hp]

/-- Only the ways from the jump itself change. -/
theorem Leads.of_withOffset (hk : code[k]? = some (.asbx .jmp (.imm 0) offset)) {p q : Nat}
    (h : Leads (code.modify k (·.withOffset new)) p q) :
    (p = k ∧ (q : Int) = k + 1 + new) ∨ Leads code p q := by
  have hat : (code.modify k (·.withOffset new))[p]? =
      if p = k then some (.asbx .jmp (.imm 0) new) else code[p]? := getElem?_withOffset hk p
  by_cases hp : p = k
  · subst hp
    rw [if_pos rfl] at hat
    exact .inl ⟨rfl, h.of_jump hat⟩
  · rw [if_neg hp] at hat
    right
    cases h with
    | next hi hjmp hijmp => exact .next (hat ▸ hi) hjmp hijmp
    | skip hi hskips => exact .skip (hat ▸ hi) hskips
    | jump hi hq => exact .jump (hat ▸ hi) hq
    | pick hpicks hj =>
      have hnew : (code.modify k (·.withOffset new))[k]? = some (.asbx .jmp (.imm 0) new) := by
        rw [getElem?_withOffset hk, if_pos rfl]
      have hold : Picks ((code.modify k (·.withOffset new)).modify k (·.withOffset offset)) _ _ _ :=
        hpicks.withOffset hnew
      rw [modify_withOffset_modify hk] at hold
      exact .pick hold hj

/-- The new target may be dry, if the jump is. -/
theorem Dry.of_withOffset (hk : code[k]? = some (.asbx .jmp (.imm 0) offset)) {r : Bank × Nat}
    {q : Nat} (h : Dry (code.modify k (·.withOffset new)) r s q) :
    Dry code r s q ∨ Dry code r s k ∧ ∃ n : Nat, (n : Int) = k + 1 + new ∧
      Dry (code.modify k (·.withOffset new)) r n q := by
  induction h with
  | start => exact .inl .start
  | @step p q _ hdry hleads ih =>
    have hdry' : ∀ i, code[p]? = some i → i.target? ≠ some r := by
      intro i hi
      by_cases hp : p = k
      · subst hp
        cases hi.symm.trans hk
        simp
      · exact hdry i (by rw [getElem?_withOffset hk, if_neg hp, hi])
    rcases ih with hp | ⟨hk', n, hn, hp⟩
    · rcases hleads.of_withOffset hk with ⟨rfl, hq⟩ | hleads
      · exact .inr ⟨hp, q, hq, .start⟩
      · exact .inl (hp.step hdry' hleads)
    · exact .inr ⟨hk', n, hn, hp.step hdry hleads⟩

end Retarget

end ActorScript
