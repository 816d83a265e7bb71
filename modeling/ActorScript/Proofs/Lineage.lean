import Mathlib.Data.Finset.Card
import ActorScript.World.Load
import ActorScript.World.Stock

/-! # Inheritance

The lineage of a class is the chain of its parents. In a world in which every parent is a
class, no chain needs more steps than there are classes, also where classes inherit from
each other in a circle; so descent is transitive and members are inherited along it.
-/

namespace ActorScript.World

variable {w : World} {a b c k : ClassId} {f : Signature} {P : Member → Prop}

/-! ## Ancestors -/

def ancestor? (w : World) : Nat → ClassId → Option ClassId
  | 0, c => some c
  | n + 1, c => (w.parent? c).bind (w.ancestor? n)

theorem ancestor?_add (w : World) (m n : Nat) (c : ClassId) :
    w.ancestor? (m + n) c = (w.ancestor? m c).bind (w.ancestor? n) := by
  induction m generalizing c with
  | zero => simp [ancestor?]
  | succ m ih =>
    rw [Nat.succ_add, ancestor?, ancestor?]
    cases w.parent? c with
    | none => rfl
    | some p => exact ih p

theorem mem_lineageWithin {limit : Nat} :
    a ∈ w.lineageWithin limit c ↔ ∃ i < limit, w.ancestor? i c = some a := by
  induction limit generalizing c with
  | zero => simp [lineageWithin]
  | succ limit ih =>
    rw [lineageWithin, Nat.exists_lt_succ_left]
    cases hp : w.parent? c with
    | none => simp [ancestor?, hp, eq_comm]
    | some p => simp [ancestor?, hp, ih, eq_comm]

theorem descends_iff : w.descends c a = true ↔ ∃ i < w.classes.size, w.ancestor? i c = some a := by
  rw [descends, List.contains_iff_mem, lineage, mem_lineageWithin]

/-- Members belong to a class, and parents are classes. -/
structure Sane (w : World) : Prop where
  parents : ∀ c p, w.parent? c = some p → p < w.classes.size
  owners : ∀ k cls, w.class? k = some cls → ∀ key f, (key, .function f) ∈ cls.members → f.owner = k

theorem lt_size_of_parent {p : ClassId} (h : w.parent? c = some p) : c < w.classes.size := by
  obtain ⟨cls, hcls, -⟩ := Option.bind_eq_some_iff.1 h
  exact (Array.getElem?_eq_some_iff.1 hcls).1

/-- All ancestors on the way to an ancestor are classes. -/
theorem Sane.ancestor_lt (hw : w.Sane) {i j : Nat} (h : w.ancestor? i c = some a) (hi : i ≠ 0)
    (hj : j ≤ i) : ∃ b < w.classes.size, w.ancestor? j c = some b := by
  obtain ⟨b, hb, hrest⟩ : ∃ b, w.ancestor? j c = some b ∧ w.ancestor? (i - j) b = some a := by
    rw [← Nat.add_sub_cancel' hj, ancestor?_add] at h
    exact Option.bind_eq_some_iff.1 h
  refine ⟨b, ?_, hb⟩
  cases j with
  | zero =>
    -- The class itself has a parent.
    cases hb
    rw [Nat.sub_zero] at hrest
    obtain ⟨n, rfl⟩ := Nat.exists_eq_succ_of_ne_zero hi
    obtain ⟨p, hp, -⟩ := Option.bind_eq_some_iff.1 hrest
    exact lt_size_of_parent hp
  | succ j =>
    rw [ancestor?_add] at hb
    obtain ⟨k, -, hk⟩ := Option.bind_eq_some_iff.1 hb
    obtain ⟨p, hp, hpb⟩ := Option.bind_eq_some_iff.1 hk
    cases hpb
    exact hw.parents k b hp

/-- A chain that is longer than the number of classes visits a class twice, and is shorter
without the round between. -/
theorem Sane.exists_shorter (hw : w.Sane) {i : Nat} (h : w.ancestor? i c = some a)
    (hi : w.classes.size ≤ i) (hpos : i ≠ 0) : ∃ j < i, w.ancestor? j c = some a := by
  have hlt (k : Nat) (hk : k ∈ Finset.range (i + 1)) :
      (w.ancestor? k c).getD 0 ∈ Finset.range w.classes.size := by
    obtain ⟨b, hb, hkb⟩ := hw.ancestor_lt h hpos (Nat.le_of_lt_succ (Finset.mem_range.1 hk))
    simpa [hkb] using hb
  obtain ⟨p, q, hpq, hqi, heq⟩ : ∃ p q, p < q ∧ q ≤ i ∧ w.ancestor? p c = w.ancestor? q c := by
    obtain ⟨p, hp, q, hq, hne, heq⟩ := Finset.exists_ne_map_eq_of_card_lt_of_maps_to
      (by simpa using Nat.lt_succ_of_le hi) hlt
    have hp := Nat.le_of_lt_succ (Finset.mem_range.1 hp)
    have hq := Nat.le_of_lt_succ (Finset.mem_range.1 hq)
    obtain ⟨b, -, hb⟩ := hw.ancestor_lt h hpos hp
    obtain ⟨b', -, hb'⟩ := hw.ancestor_lt h hpos hq
    have heq : w.ancestor? p c = w.ancestor? q c := by simpa [hb, hb'] using heq
    rcases Nat.lt_or_gt_of_ne hne with hlt | hlt
    · exact ⟨p, q, hlt, hq, heq⟩
    · exact ⟨q, p, hlt, hp, heq.symm⟩
  refine ⟨p + (i - q), by omega, ?_⟩
  rw [ancestor?_add, heq, ← ancestor?_add, Nat.add_sub_cancel' hqi, h]

theorem Sane.descends_of_ancestor (hw : w.Sane) (hsize : 0 < w.classes.size) {i : Nat}
    (h : w.ancestor? i c = some a) : w.descends c a = true := by
  induction i using Nat.strongRecOn with
  | ind i ih =>
    by_cases hi : i < w.classes.size
    · exact descends_iff.2 ⟨i, hi, h⟩
    · obtain ⟨j, hj, hja⟩ := hw.exists_shorter h (by omega) (by omega)
      exact ih j hj hja

theorem Sane.descends_trans (hw : w.Sane) (hab : w.descends a b = true)
    (hbc : w.descends b c = true) : w.descends a c = true := by
  obtain ⟨i, hi, hib⟩ := descends_iff.1 hab
  obtain ⟨j, -, hjc⟩ := descends_iff.1 hbc
  refine hw.descends_of_ancestor (by omega) (i := i + j) ?_
  rw [ancestor?_add, hib, Option.bind_some, hjc]

/-! ## Members -/

section Members

variable {m : Member} {owner : ClassId} {name : String}

theorem findMember_spec (h : w.findMember c name = some (m, owner)) :
    w.descends c owner = true ∧ ∃ cls, w.class? owner = some cls ∧ cls.member? name = some m := by
  obtain ⟨k, hk, hfound⟩ := List.exists_of_findSome?_eq_some h
  obtain ⟨m', hm, heq⟩ := Option.map_eq_some_iff.1 hfound
  cases heq
  exact ⟨List.contains_iff_mem.2 hk, Option.bind_eq_some_iff.1 hm⟩

/-- A class has something under every name that an ancestor has something under. -/
theorem Sane.findMember_inherited (hw : w.Sane) (hab : w.descends a b = true)
    (h : (w.findMember b name).isSome) : (w.findMember a name).isSome := by
  obtain ⟨⟨m, owner⟩, hfound⟩ := Option.isSome_iff_exists.1 h
  obtain ⟨hdescends, cls, hcls, hm⟩ := findMember_spec hfound
  have howner := hw.descends_trans hab hdescends
  refine List.findSome?_isSome_iff.2 ⟨owner, List.contains_iff_mem.1 howner, ?_⟩
  simp [hcls, hm]

/-- The class that a function was found in is the one that it belongs to. -/
theorem Sane.owner_eq (hw : w.Sane) (h : w.findMember c name = some (.function f, owner)) :
    f.owner = owner := by
  obtain ⟨-, cls, hcls, hf⟩ := findMember_spec h
  obtain ⟨l1, l2, heq, -⟩ := List.lookup_eq_some_iff.1 hf
  exact hw.owners owner cls hcls (Text.fold name) f (by simp [heq])

end Members

/-! ## Declared classes -/

theorem mem_putByKey {α : Type} {key : String} {v : α} {l : List (String × α)} {entry : String × α}
    (h : entry ∈ putByKey key v l) : entry = (key, v) ∨ entry ∈ l := by
  induction l with
  | nil => exact .inl (by simpa [putByKey] using h)
  | cons first rest ih =>
    obtain ⟨k, x⟩ := first
    rw [putByKey] at h
    split at h
    · exact (List.mem_cons.1 h).imp_right (List.mem_cons_of_mem _)
    · rcases List.mem_cons.1 h with rfl | h
      · exact .inr List.mem_cons_self
      · exact (ih h).imp_right (List.mem_cons_of_mem _)

theorem foldl_keeps {α β : Type} {f : β → α → β} {P : β → Prop} {l : List α} {x : β}
    (hstep : ∀ x, ∀ a ∈ l, P x → P (f x a)) (hx : P x) : P (l.foldl f x) := by
  induction l generalizing x with
  | nil => exact hx
  | cons a rest ih =>
    exact ih (fun x b hb => hstep x b (List.mem_cons_of_mem _ hb)) (hstep x a List.mem_cons_self hx)

theorem foldlM_keeps {ε α β : Type} {f : β → α → Except ε β} {P : β → Prop} {l : List α} {x y : β}
    (hstep : ∀ x a y, f x a = .ok y → P x → P y) (h : l.foldlM f x = .ok y) (hx : P x) : P y := by
  induction l generalizing x with
  | nil =>
    cases h
    exact hx
  | cons a rest ih =>
    rw [List.foldlM_cons] at h
    cases hf : f x a with
    | error e =>
      rw [hf] at h
      cases h
    | ok z =>
      rw [hf] at h
      exact ih h (hstep x a z hf hx)

theorem readSignature_owner {cls : String} {decl : FunctionDecl}
    (h : w.readSignature k cls decl = .ok f) : f.owner = k := by
  simp only [readSignature, bind, Except.bind] at h
  split at h
  · cases h
  · split at h
    · cases h
    · cases h
      rfl

def EachMember (P : Member → Prop) (members : List (String × Member)) : Prop :=
  ∀ key m, (key, m) ∈ members → P m

theorem EachMember.put {members : List (String × Member)} (h : EachMember P members) {key : String}
    {m : Member} (hm : P m) : EachMember P (putByKey key m members) := by
  intro key' m' hmem
  rcases mem_putByKey hmem with ⟨rfl, rfl⟩ | hmem
  · exact hm
  · exact h key' m' hmem

/-- What fields have, the constants of the declaration and the functions that are read from it, all
members of a class have. -/
theorem layOut_members {parent : Option ClassId} {decl : ClassDecl} {layout : ClassLayout}
    (h : w.layOut k parent decl = .ok layout) (hfield : ∀ f, P (.field f))
    (hconst : ∀ p ∈ decl.constants, P (.const p.2))
    (hfunction : ∀ d f, w.readSignature k decl.name d = .ok f → P (.function f)) :
    EachMember P layout.members := by
  simp only [layOut, bind, Except.bind] at h
  split at h
  · cases h
  next fields hfields =>
    have hfields : EachMember P fields.members := by
      refine foldlM_keeps (P := fun layout : ClassLayout => EachMember P layout.members)
        (fun layout f layout' hadd hall => ?_) hfields (by simp [EachMember])
      simp only [addField, bind, Except.bind] at hadd
      split at hadd
      · cases hadd
      · split at hadd
        · cases hadd
        · cases hadd
          exact hall.put (hfield _)
    split at h
    · cases h
    next members hmembers =>
      cases h
      refine foldlM_keeps ?_ hmembers (foldl_keeps (fun _ p hp hm => hm.put (hconst p hp)) hfields)
      intro members f members' hstep hm
      cases hf : w.readSignature k decl.name f with
      | error e => simp [hf] at hstep
      | ok signature =>
        simp only [hf] at hstep
        cases hstep
        exact hm.put (hfunction f signature hf)

theorem findClass_lt {name : String} (h : w.findClass name = some c) : c < w.classes.size :=
  (Array.findIdx?_eq_some_iff_getElem.1 h).1

theorem findParent_lt {cls : String} {name : Option String} {p : ClassId}
    (h : w.findParent k cls name = .ok (some p)) : p < w.classes.size := by
  cases name with
  | none => cases h
  | some name =>
    rw [findParent] at h
    split at h
    next hfound =>
      split at h
      · cases h
      · cases h
        exact findClass_lt hfound
    · cases h

end ActorScript.World
