import ActorScript.Text.Distance
import Mathlib.Data.List.MinMax
import Mathlib.Order.Bounds.Basic

/-! # Nearest names

The distance of two texts is the least number of edits that lead from one to the other. The name
that is suggested is the first of the nearest candidates.
-/

namespace ActorScript.Text

variable {a b c : List Char} {n : Nat}

/-! ## Edits -/

/-- One character is put in, taken out or replaced, at some place of a text. -/
inductive Edit : List Char → List Char → Prop
  | insert (x : Char) (before after : List Char) : Edit (before ++ after) (before ++ x :: after)
  | delete (x : Char) (before after : List Char) : Edit (before ++ x :: after) (before ++ after)
  | replace (x y : Char) (before after : List Char) :
      Edit (before ++ x :: after) (before ++ y :: after)

inductive Edits : Nat → List Char → List Char → Prop
  | refl (a : List Char) : Edits 0 a a
  | step {n : Nat} {a b c : List Char} : Edit a b → Edits n b c → Edits (n + 1) a c

theorem Edit.behind (h : Edit a b) (x : Char) : Edit (x :: a) (x :: b) := by
  cases h with
  | insert y before after => exact .insert y (x :: before) after
  | delete y before after => exact .delete y (x :: before) after
  | replace y z before after => exact .replace y z (x :: before) after

theorem Edit.reverse (h : Edit a b) : Edit a.reverse b.reverse := by
  cases h with
  | insert x before after => simpa using Edit.insert x after.reverse before.reverse
  | delete x before after => simpa using Edit.delete x after.reverse before.reverse
  | replace x y before after => simpa using Edit.replace x y after.reverse before.reverse

namespace Edits

theorem behind (h : Edits n a b) (x : Char) : Edits n (x :: a) (x :: b) := by
  induction h with
  | refl a => exact .refl (x :: a)
  | step hfirst _ ih => exact .step (hfirst.behind x) ih

theorem snoc (h : Edits n a b) (hlast : Edit b c) : Edits (n + 1) a c := by
  induction h with
  | refl a => exact .step hlast (.refl c)
  | step hfirst _ ih => exact .step hfirst (ih hlast)

theorem reverse (h : Edits n a b) : Edits n a.reverse b.reverse := by
  induction h with
  | refl a => exact .refl a.reverse
  | step hfirst _ ih => exact .step hfirst.reverse ih

end Edits

/-! ## Distance by first characters -/

/-- The distance of two texts by what happens to their first characters. -/
def gap : List Char → List Char → Nat
  | [], b => b.length
  | a, [] => a.length
  | x :: a, y :: b =>
      min (min (gap a (y :: b) + 1) (gap (x :: a) b + 1)) (gap a b + if x == y then 0 else 1)

section Gap

variable {x y : Char}

@[simp]
theorem gap_nil_left (b : List Char) : gap [] b = b.length := by
  rw [gap]

@[simp]
theorem gap_nil_right (a : List Char) : gap a [] = a.length := by
  cases a <;> simp [gap]

theorem gap_cons : gap (x :: a) (y :: b) =
    min (min (gap a (y :: b) + 1) (gap (x :: a) b + 1)) (gap a b + if x == y then 0 else 1) := by
  rw [gap]

theorem gap_insert_le (a b : List Char) (x : Char) : gap a (x :: b) ≤ gap a b + 1 := by
  cases a with
  | nil => simp
  | cons y a =>
    rw [gap_cons]
    omega

theorem gap_delete_le (a b : List Char) (x : Char) : gap (x :: a) b ≤ gap a b + 1 := by
  cases b with
  | nil => simp
  | cons y b =>
    rw [gap_cons]
    omega

theorem gap_replace_le (a b : List Char) (x y : Char) : gap (x :: a) (y :: b) ≤ gap a b + 1 := by
  rw [gap_cons]
  split <;> omega

theorem gap_self (a : List Char) : gap a a = 0 := by
  induction a with
  | nil => simp
  | cons x a ih => simp [gap_cons, ih]

/-- As many edits as the distance says are enough. -/
theorem edits_gap (a b : List Char) : Edits (gap a b) a b := by
  induction a generalizing b with
  | nil =>
    induction b with
    | nil => simpa using Edits.refl []
    | cons y b ih => simpa using ih.snoc (.insert y [] b)
  | cons x a iha =>
    induction b with
    | nil => simpa using Edits.step (.delete x [] a) (iha [])
    | cons y b ihb =>
      have hdelete : Edits (gap a (y :: b) + 1) (x :: a) (y :: b) :=
        .step (.delete x [] a) (iha (y :: b))
      have hinsert : Edits (gap (x :: a) b + 1) (x :: a) (y :: b) := ihb.snoc (.insert y [] b)
      have hkeep : Edits (gap a b + if x == y then 0 else 1) (x :: a) (y :: b) := by
        split
        next hsame => exact eq_of_beq hsame ▸ (iha b).behind x
        next => exact .step (.replace x y [] a) ((iha b).behind y)
      rw [gap_cons]
      exact min_rec' (Edits · (x :: a) (y :: b)) (min_rec' (Edits · _ _) hdelete hinsert) hkeep

/-- The same characters in front do not bring texts further apart. -/
theorem gap_append_le (h : ∀ c, gap a c ≤ gap b c + 1) (before c : List Char) :
    gap (before ++ a) c ≤ gap (before ++ b) c + 1 := by
  induction before generalizing c with
  | nil => exact h c
  | cons x before ih =>
    induction c with
    | nil => simpa using ih []
    | cons y c ihc =>
      have := ih (y :: c)
      have := ih c
      rw [List.cons_append, List.cons_append, gap_cons, gap_cons]
      simp only [List.cons_append] at ihc
      omega

/-- One edit brings a text nearer to another one by at most one. -/
theorem Edit.gap_le (h : Edit a b) (c : List Char) : gap a c ≤ gap b c + 1 := by
  cases h with
  | insert x before a =>
    refine gap_append_le (fun c => ?_) before c
    induction c with
    | nil => simp; omega
    | cons y c ih =>
      have := gap_insert_le a c y
      rw [gap_cons]
      omega
  | delete x before a => exact gap_append_le (gap_delete_le a · x) before c
  | replace x y before a =>
    refine gap_append_le (fun c => ?_) before c
    induction c with
    | nil => simp
    | cons z c ih =>
      have := gap_delete_le a (z :: c) x
      have := gap_insert_le (x :: a) c z
      have := gap_replace_le a c x z
      rw [gap_cons (x := y)]
      omega

theorem Edits.gap_le (h : Edits n a b) : gap a b ≤ n := by
  induction h with
  | refl a => exact Nat.le_of_eq (gap_self a)
  | @step n a b c hfirst _ ih =>
    have := hfirst.gap_le c
    omega

end Gap

/-! ## Rows -/

/-- Distances of a text to the beginnings of another one, of which `q` is passed already. Both texts
are held with their last characters first. -/
def rowFrom (p q : List Char) : List Char → List Nat
  | [] => [gap p q]
  | d :: rest => gap p q :: rowFrom p (d :: q) rest

theorem rowFrom_eq_cons (p q rest : List Char) : ∃ row, rowFrom p q rest = gap p q :: row := by
  cases rest with
  | nil => exact ⟨[], rfl⟩
  | cons d rest => exact ⟨_, rfl⟩

theorem rowFrom_nil (q rest : List Char) :
    rowFrom [] q rest = List.range' q.length (rest.length + 1) := by
  induction rest generalizing q with
  | nil => simp [rowFrom]
  | cons d rest ih => simp [rowFrom, ih, List.range'_succ]

theorem getLastD_rowFrom (p q rest : List Char) (n : Nat) :
    (rowFrom p q rest).getLastD n = gap p (rest.reverse ++ q) := by
  induction rest generalizing q n with
  | nil => simp [rowFrom]
  | cons d rest ih =>
    rw [rowFrom, List.getLastD_cons, ih]
    simp

/-- The cells behind one cell of a row come of it and of the row above. -/
theorem rowAfter_rowFrom (x : Char) (p q rest : List Char) :
    gap (x :: p) q :: rowAfter x rest (rowFrom p q rest) (gap (x :: p) q) =
      rowFrom (x :: p) q rest := by
  induction rest generalizing q with
  | nil => simp [rowFrom, rowAfter]
  | cons d rest ih =>
    obtain ⟨row, hrow⟩ := rowFrom_eq_cons p (d :: q) rest
    have hcell : min (min (gap p (d :: q) + 1) (gap (x :: p) q + 1))
        (gap p q + if x == d then 0 else 1) = gap (x :: p) (d :: q) := gap_cons.symm
    have hrest := ih (d :: q)
    rw [hrow] at hrest
    rw [rowFrom, hrow, rowAfter, hcell, hrest, rowFrom]

theorem nextRow_rowFrom (p b : List Char) (x : Char) :
    nextRow b (rowFrom p [] b) x = rowFrom (x :: p) [] b := by
  obtain ⟨row, hrow⟩ := rowFrom_eq_cons p [] b
  have hfirst : (rowFrom p [] b).headD 0 + 1 = gap (x :: p) [] := by simp [hrow]
  rw [nextRow, hfirst, rowAfter_rowFrom]

theorem distance_eq_gap (a b : List Char) : distance a b = gap a.reverse b.reverse := by
  have hrows : ∀ p, a.foldl (nextRow b) (rowFrom p [] b) = rowFrom (a.reverse ++ p) [] b := by
    induction a with
    | nil => simp
    | cons x a ih => simp [nextRow_rowFrom, ih]
  have hstart : List.range (b.length + 1) = rowFrom [] [] b := by
    rw [rowFrom_nil, List.range_eq_range', List.length_nil]
  rw [distance, hstart, hrows, getLastD_rowFrom, List.append_nil, List.append_nil]

/-- No fewer edits lead from one text to the other. -/
theorem isLeast_distance (a b : List Char) : IsLeast { n | Edits n a b } (distance a b) := by
  rw [distance_eq_gap]
  constructor
  · simpa using (edits_gap a.reverse b.reverse).reverse
  · exact fun n h => h.reverse.gap_le

/-! ## The nearest candidate -/

/-- After some candidates the search holds the first of the nearest, if it is near enough. -/
theorem foldl_nearer {key : List Char} {d : String → Nat}
    (hd : ∀ c, distance key (fold c).toList = d c) (candidates : List String) :
    candidates.foldl (nearer key) none =
      ((candidates.argmin d).filter (d · ≤ maxDistance)).map fun c => (c, d c) := by
  induction candidates using List.reverseRecOn with
  | nil => rfl
  | append_singleton candidates c ih =>
    rw [List.foldl_append, ih, List.argmin_concat, List.foldl_cons, List.foldl_nil]
    simp only [nearer, hd]
    cases candidates.argmin d with
    | none => by_cases hnear : d c ≤ maxDistance <;> simp [hnear, Option.filter]
    | some b =>
      by_cases hlt : d c < d b <;> by_cases hb : d b ≤ maxDistance <;>
        by_cases hc : d c ≤ maxDistance <;> simp [hlt, hb, hc, Option.filter] <;> omega

/-- Two texts are as far apart as the least number of edits between them says. For a name the first
of the nearest candidates is suggested if it is near enough, and none exactly if all are too far. -/
theorem suggestions_nearest :
    (∀ a b : String, IsLeast { n | Edits n a.toList b.toList } (distance a.toList b.toList)) ∧
    ∀ (name : String) (candidates : List String),
      let d := fun c => distance (fold name).toList (fold c).toList
      (∀ c, nearest? name candidates = some c ↔ d c ≤ 3 ∧ c ∈ candidates ∧
        (∀ x ∈ candidates, d c ≤ d x) ∧
        ∀ x ∈ candidates, d x ≤ d c → candidates.idxOf c ≤ candidates.idxOf x) ∧
      (nearest? name candidates = none ↔ ∀ c ∈ candidates, 3 < d c) := by
  refine ⟨fun a b => isLeast_distance a.toList b.toList, fun name candidates => ?_⟩
  intro d
  have hnearest : nearest? name candidates = (candidates.argmin d).filter (d · ≤ 3) := by
    rw [nearest?, foldl_nearer (d := d) (fun _ => rfl), Option.map_map]
    exact Option.map_id'
  refine ⟨fun c => ?_, ?_⟩
  · rw [hnearest, ← List.mem_argmin_iff, Option.filter_eq_some_iff]
    simp [and_comm]
  · rw [hnearest, Option.filter_eq_none_iff]
    refine ⟨fun h c hc => ?_, fun h c hc => by simpa using h c (List.argmin_mem hc)⟩
    obtain ⟨b, hb⟩ := Option.ne_none_iff_exists'.1
      (mt List.argmin_eq_none.1 (List.ne_nil_of_mem hc) : candidates.argmin d ≠ none)
    have hfar : 3 < d b := by simpa using h b hb
    exact Nat.lt_of_lt_of_le hfar (List.le_of_mem_argmin hc hb)

example : distance "kitten".toList "sitting".toList = 3 := by decide

example : nearest? "HEALT" ["wealth", "Health", "health"] = some "Health" := by decide

end ActorScript.Text
