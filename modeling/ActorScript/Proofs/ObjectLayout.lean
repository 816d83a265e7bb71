import Mathlib.Data.List.Pairwise
import ActorScript.Proofs.Loading

/-! # The layout of objects

The fields that a class declares are aligned, lie within its instances and are apart from
each other. They stand behind those of its ancestors if no class on the way up is declared
before its parent. A class that is declared first begins where an empty parent would end.
-/

namespace ActorScript

variable {f g : Field} {first : Nat} {cls : Class} {key : String} {a c : ClassId}
  {layout : ClassLayout}

/-! ## Fields -/

namespace Field

def Apart (f g : Field) : Prop :=
  f.offset + f.ty.size ≤ g.offset ∨ g.offset + g.ty.size ≤ f.offset

instance (f g : Field) : Decidable (f.Apart g) :=
  inferInstanceAs (Decidable (_ ∨ _))

theorem Apart.symm (h : f.Apart g) : g.Apart f :=
  Or.symm h

/-- A field lies between two offsets, at a multiple of its alignment. -/
structure Fits (first last : Nat) (f : Field) : Prop where
  aligned : f.ty.align ∣ f.offset
  behind : first ≤ f.offset
  within : f.offset + f.ty.size ≤ last

theorem Fits.mono {last last' : Nat} (h : f.Fits first last) (hle : last ≤ last') :
    f.Fits first last' :=
  ⟨h.aligned, h.behind, Nat.le_trans h.within hle⟩

theorem Fits.apart {last last' : Nat} (hf : f.Fits first last) (hg : g.Fits last last') :
    f.Apart g :=
  .inl (Nat.le_trans hf.within hg.behind)

end Field

theorem Ty.align_pos (ty : Ty) : 0 < ty.align := by
  induction ty with
  | array elem count ih => simpa [align] using ih
  | integer kind => cases kind <;> decide
  | floating kind => cases kind <;> decide
  | _ => simp [align, size]

namespace World

theorem dvd_alignUp (offset align : Nat) : align ∣ alignUp offset align :=
  Nat.dvd_mul_left _ _

theorem le_alignUp (offset : Nat) {align : Nat} (h : 0 < align) : offset ≤ alignUp offset align := by
  have hdiv := Nat.div_add_mod (offset + align - 1) align
  have hmod := Nat.mod_lt (offset + align - 1) h
  rw [Nat.mul_comm] at hdiv
  unfold alignUp
  omega

end World

/-! ## Members -/

def Member.placed? : Member → Option Field
  | .field f => if f.flags.isStatic then none else some f
  | _ => none

def Class.placed? (cls : Class) (key : String) : Option Field :=
  (cls.members.lookup key).bind Member.placed?

theorem Class.mem_of_placed? (h : cls.placed? key = some f) :
    ∃ m, (key, m) ∈ cls.members ∧ m.placed? = some f := by
  obtain ⟨m, hm, hf⟩ := Option.bind_eq_some_iff.1 h
  obtain ⟨before, after, heq, -⟩ := List.lookup_eq_some_iff.1 hm
  exact ⟨m, by simp [heq], hf⟩

/-- Two members are apart if instances have places for both. -/
def Member.Apart (a b : Member) : Prop :=
  ∀ f ∈ a.placed?, ∀ g ∈ b.placed?, f.Apart g

theorem Member.Apart.symm {a b : Member} (h : a.Apart b) : b.Apart a :=
  fun f hf g hg => (h g hg f hf).symm

/-- Members laid out between two offsets. -/
structure Arranged (first last : Nat) (members : List (String × Member)) : Prop where
  fits : ∀ entry ∈ members, ∀ f ∈ entry.2.placed?, f.Fits first last
  apart : members.Pairwise fun a b => a.2.Apart b.2

namespace Arranged

variable {first last last' : Nat} {members : List (String × Member)}

theorem nil : Arranged first last [] :=
  ⟨by simp, .nil⟩

theorem mono (h : Arranged first last members) (hle : last ≤ last') :
    Arranged first last' members :=
  ⟨fun entry he f hf => (h.fits entry he f hf).mono hle, h.apart⟩

/-- A member takes its place among others that it is apart from. -/
theorem put (h : Arranged first last members) {m : Member}
    (hfits : ∀ f ∈ m.placed?, f.Fits first last) (hapart : ∀ entry ∈ members, entry.2.Apart m) :
    Arranged first last (putByKey key m members) := by
  refine ⟨fun entry he => ?_, ?_⟩
  · rcases World.mem_putByKey he with rfl | he
    · exact hfits
    · exact h.fits entry he
  · have hpairs := h.apart
    clear h
    induction members with
    | nil => exact List.pairwise_singleton _ _
    | cons entry rest ih =>
      obtain ⟨k, v⟩ := entry
      obtain ⟨hfirst, hrest⟩ := List.pairwise_cons.1 hpairs
      rw [putByKey]
      split
      · exact List.pairwise_cons.2 ⟨fun e he => (hapart e (by simp [he])).symm, hrest⟩
      · refine List.pairwise_cons.2 ⟨fun e he => ?_, ih (fun e he => hapart e (by simp [he])) hrest⟩
        rcases World.mem_putByKey he with rfl | he
        · exact hapart (k, v) (by simp)
        · exact hfirst e he

theorem put_unplaced (h : Arranged first last members) {m : Member} (hm : m.placed? = none) :
    Arranged first last (putByKey key m members) :=
  h.put (by simp [hm]) fun entry _ f _ g hg => by simp [hm] at hg

theorem put_last (h : Arranged first last members) (hf : f.Fits last last')
    (hfirst : first ≤ last) : Arranged first last' (putByKey key (.field f) members) := by
  have hle : last ≤ last' :=
    Nat.le_trans hf.behind (Nat.le_trans (Nat.le_add_right _ _) hf.within)
  by_cases hstatic : f.flags.isStatic = true
  · exact (h.mono hle).put_unplaced (by simp [Member.placed?, hstatic])
  · have hplaced : (Member.field f).placed? = some f := by simp [Member.placed?, hstatic]
    refine (h.mono hle).put ?_ ?_
    · rw [hplaced]
      rintro _ ⟨⟩
      exact ⟨hf.aligned, Nat.le_trans hfirst hf.behind, hf.within⟩
    · intro entry he g hg
      rw [hplaced]
      rintro _ ⟨⟩
      exact (h.fits entry he g hg).apart hf

section Placed

variable {cls : Class} {key : String} {f : Field}

theorem fits_placed (h : Arranged first last cls.members) (hf : cls.placed? key = some f) :
    f.Fits first last := by
  obtain ⟨m, hmem, hm⟩ := Class.mem_of_placed? hf
  exact h.fits (key, m) hmem f hm

theorem apart_placed (h : Arranged first last cls.members) {key' : String}
    (hf : cls.placed? key = some f) (hg : cls.placed? key' = some g) (hne : key ≠ key') :
    f.Apart g := by
  obtain ⟨m, hmem, hm⟩ := Class.mem_of_placed? hf
  obtain ⟨m', hmem', hm'⟩ := Class.mem_of_placed? hg
  have hsymm : Std.Symm fun a b : String × Member => a.2.Apart b.2 := ⟨fun _ _ h => h.symm⟩
  exact h.apart.forall hmem hmem' (by simp [hne]) f hm g hm'

end Placed

end Arranged

namespace World

variable {w w' : World}

/-! ## Laying out a class -/

theorem addField_arranged {start : Nat} {cls : String} {layout' : ClassLayout} {decl : FieldDecl}
    (h : w.addField cls layout decl = .ok layout')
    (hlayout : start ≤ layout.size ∧ Arranged start layout.size layout.members) :
    start ≤ layout'.size ∧ Arranged start layout'.size layout'.members := by
  obtain ⟨hstart, harranged⟩ := hlayout
  simp only [addField, bind, Except.bind] at h
  split at h
  · cases h
  next ty _ =>
    split at h
    · cases h
    next flags _ =>
      cases h
      by_cases hstatic : flags.isStatic = true
      · simp only [hstatic, if_true]
        exact ⟨hstart, harranged.put_unplaced (by simp [Member.placed?, hstatic])⟩
      · simp only [hstatic, Bool.false_eq_true, if_false]
        have hpos : 0 < max ty.align 1 := by omega
        have hbehind := le_alignUp layout.size hpos
        have haligned : ty.align ∣ alignUp layout.size (max ty.align 1) := by
          rw [Nat.max_eq_left ty.align_pos]
          exact dvd_alignUp _ _
        exact ⟨by omega, harranged.put_last ⟨haligned, hbehind, Nat.le_refl _⟩ hstart⟩

def inheritedSize (w : World) (parent : Option ClassId) : Nat :=
  (parent.bind w.class?).elim 0 Class.size

theorem layOut_arranged {id : ClassId} {parent : Option ClassId} {decl : ClassDecl}
    (h : w.layOut id parent decl = .ok layout) :
    w.inheritedSize parent ≤ layout.size ∧
      Arranged (w.inheritedSize parent) layout.size layout.members := by
  simp only [layOut, bind, Except.bind] at h
  split at h
  · cases h
  next fields hfields =>
    obtain ⟨hstart, hfields⟩ : w.inheritedSize parent ≤ fields.size ∧
        Arranged (w.inheritedSize parent) fields.size fields.members :=
      foldlM_keeps (P := fun layout : ClassLayout => w.inheritedSize parent ≤ layout.size ∧
        Arranged (w.inheritedSize parent) layout.size layout.members)
        (fun _ _ _ hadd => addField_arranged hadd) hfields ⟨Nat.le_refl _, .nil⟩
    split at h
    · cases h
    next members hmembers =>
      cases h
      refine ⟨hstart, foldlM_keeps ?_ hmembers
        (foldl_keeps (fun _ _ _ hm => hm.put_unplaced rfl) hfields)⟩
      intro members f members' hstep hm
      cases hf : w.readSignature id decl.name f with
      | error e => simp [hf] at hstep
      | ok signature =>
        simp only [hf] at hstep
        cases hstep
        exact hm.put_unplaced rfl

/-! ## Layout of all classes -/

/-- The fields of a class lie within its instances, and behind what it inherits from a class that
was declared before it. -/
structure LaidOut (w : World) (k : Nat) (cls : Class) : Prop where
  arranged : Arranged 0 cls.size cls.members
  behind : ∀ (p : Nat) parent, cls.parent = some p → p < k → w.class? p = some parent →
    parent.size ≤ cls.size ∧ Arranged parent.size cls.size cls.members

def Layered (w : World) : Prop :=
  ∀ (k : Nat) cls, w.class? k = some cls → w.LaidOut k cls

theorem LaidOut.blank {k : Nat} (h : cls = { name := cls.name }) : w.LaidOut k cls := by
  rw [h]
  exact ⟨.nil, by simp⟩

theorem LaidOut.of_classes {k : Nat} (h : w.LaidOut k cls)
    (hclasses : ∀ p < k, cls.parent = some p → w'.class? p = w.class? p) : w'.LaidOut k cls where
  arranged := h.arranged
  behind p parent hp hlt hparent :=
    h.behind p parent hp hlt ((hclasses p hlt hp).symm.trans hparent)

theorem LoadStep.layered (h : LoadStep first w w') (hw : w.Layered) : w'.Layered := by
  cases h with
  | global | special => exact fun k cls hcls => (hw k cls hcls).of_classes fun _ _ _ => rfl
  | sound name =>
    have hsame (p : ClassId) : (w.addSound name).class? p = w.class? p := by
      rw [class?, addSound_classes, class?]
    intro k cls hcls
    rw [hsame] at hcls
    exact (hw k cls hcls).of_classes fun p _ _ => hsame p
  | register =>
    intro k cls hcls
    rw [class?_push] at hcls
    split at hcls
    · cases hcls
      exact .blank rfl
    · have hk := class?_lt hcls
      refine (hw k cls hcls).of_classes fun p hp _ => ?_
      rw [class?_push, if_neg (by omega)]
  | @define id decl parent layout _ hid hblank hparent hlayout =>
    intro k cls hcls
    rw [class?_fillIn hid] at hcls
    split at hcls
    next heq =>
      subst heq
      cases hcls
      obtain ⟨hstart, harranged⟩ := layOut_arranged hlayout
      have hsize : layout.size ≤ alignUp layout.size 8 := le_alignUp layout.size (by decide)
      refine ⟨⟨fun entry he f hf => ?_, harranged.apart⟩, fun p cls hp hlt hcls => ?_⟩
      · have hfits := harranged.fits entry he f hf
        exact ⟨hfits.aligned, Nat.zero_le _, Nat.le_trans hfits.within hsize⟩
      · -- The parent is not the class that is filled in, so its size is the one that was read.
        rw [class?_fillIn hid, if_neg (by omega)] at hcls
        have hinherited : w.inheritedSize parent = cls.size := by
          simp only [filledClass] at hp
          simp [inheritedSize, hp, hcls]
        rw [hinherited] at hstart harranged
        exact ⟨Nat.le_trans hstart hsize, harranged.mono hsize⟩
    next hne =>
      by_cases hlt : k < id
      · refine (hw k cls hcls).of_classes fun p hp _ => ?_
        rw [class?_fillIn hid, if_neg (by omega)]
      · exact .blank (hblank k cls (by omega) hcls)

theorem Loaded.layered (h : w.Loaded) : w.Layered :=
  h.keeps (fun k cls hcls => by simp [class?, World.empty] at hcls)
    fun _ _ _ hstep hw => hstep.layered hw

/-! ## Chains of ancestors -/

/-- No class on the way up from a class is declared before its parent. -/
def InOrder (w : World) (c : ClassId) : Prop :=
  ∀ k p : Nat, w.descends c k = true → w.parent? k = some p → p < k

theorem Sane.descends_parent (hw : w.Sane) {p : ClassId} (hp : w.parent? c = some p) :
    w.descends c p = true :=
  hw.descends_of_ancestor (Nat.zero_lt_of_lt (lt_size_of_parent hp)) (i := 1)
    (by simp [ancestor?, hp])

theorem Sane.descends_self (hw : w.Sane) (hc : c < w.classes.size) : w.descends c c = true :=
  hw.descends_of_ancestor (Nat.zero_lt_of_lt hc) (i := 0) rfl

theorem InOrder.of_descends (h : w.InOrder c) (hw : w.Sane) (ha : w.descends c a = true) :
    w.InOrder a :=
  fun k p hk hp => h k p (hw.descends_trans ha hk) hp

/-- What a class adds stands behind what its parent has. -/
theorem Layered.behind_parent (hlayered : w.Layered) (hw : w.Sane) {p : ClassId} {clsA clsP : Class}
    (horder : w.InOrder a) (hp : w.parent? a = some p) (hclsA : w.class? a = some clsA)
    (hclsP : w.class? p = some clsP) :
    clsP.size ≤ clsA.size ∧ ∀ key f, clsA.placed? key = some f → clsP.size ≤ f.offset := by
  have hlt := horder a p (hw.descends_self (lt_size_of_parent hp)) hp
  have hparent : clsA.parent = some p := by simpa [parent?, hclsA] using hp
  obtain ⟨hsize, harranged⟩ := (hlayered a clsA hclsA).behind p clsP hparent hlt hclsP
  exact ⟨hsize, fun key f hf => (harranged.fits_placed hf).behind⟩

/-- What a class adds stands behind what each of its ancestors has. -/
theorem Layered.behind_ancestor (hlayered : w.Layered) (hw : w.Sane) {n : Nat} {b : ClassId}
    {clsA clsB : Class} (horder : w.InOrder a) (hb : w.ancestor? (n + 1) a = some b)
    (hclsA : w.class? a = some clsA) (hclsB : w.class? b = some clsB) :
    clsB.size ≤ clsA.size ∧ ∀ key f, clsA.placed? key = some f → clsB.size ≤ f.offset := by
  induction n generalizing a clsA with
  | zero =>
    obtain ⟨p, hp, hpb⟩ := Option.bind_eq_some_iff.1 hb
    cases hpb
    exact hlayered.behind_parent hw horder hp hclsA hclsB
  | succ n ih =>
    obtain ⟨p, hp, hpb⟩ := Option.bind_eq_some_iff.1 hb
    obtain ⟨clsP, hclsP⟩ := exists_class? (hw.parents a p hp)
    obtain ⟨hsizeP, -⟩ := ih (horder.of_descends hw (hw.descends_parent hp)) hpb hclsP
    obtain ⟨hsize, hfields⟩ := hlayered.behind_parent hw horder hp hclsA hclsP
    exact ⟨Nat.le_trans hsizeP hsize, fun key f hf => Nat.le_trans hsizeP (hfields key f hf)⟩

/-- Fields of two different classes on the way up from a class are apart. -/
theorem Layered.apart_of_ancestors (hlayered : w.Layered) (hw : w.Sane) {b : ClassId} {i j : Nat}
    {clsA clsB : Class} {key' : String} (horder : w.InOrder c) (ha : w.ancestor? i c = some a)
    (hb : w.ancestor? j c = some b) (hij : i ≤ j) (hne : a ≠ b) (hclsA : w.class? a = some clsA)
    (hclsB : w.class? b = some clsB) (hf : clsA.placed? key = some f)
    (hg : clsB.placed? key' = some g) : g.Apart f := by
  have hdescends : w.descends c a = true :=
    hw.descends_of_ancestor (Nat.zero_lt_of_lt (class?_lt hclsA)) ha
  rw [← Nat.add_sub_cancel' hij, ancestor?_add, ha, Option.bind_some] at hb
  cases hn : j - i with
  | zero =>
    rw [hn] at hb
    exact absurd (Option.some.inj hb) hne
  | succ n =>
    rw [hn] at hb
    obtain ⟨-, hbehind⟩ :=
      hlayered.behind_ancestor hw (horder.of_descends hw hdescends) hb hclsA hclsB
    have hwithin := ((hlayered b clsB hclsB).arranged.fits_placed hg).within
    exact .inl (Nat.le_trans hwithin (hbehind key f hf))

/-- The fields of a class are aligned, lie within its instances, are apart from each other and
stand behind the parent, if that is declared first. Then no two fields overlap that are declared on
the way up from a class. -/
theorem object_layout_sound (hw : w.Loaded) :
    (∀ c cls, w.class? c = some cls →
      (∀ key f, cls.placed? key = some f →
        f.ty.align ∣ f.offset ∧ f.offset + f.ty.size ≤ cls.size) ∧
      (∀ key key' f g, key ≠ key' → cls.placed? key = some f → cls.placed? key' = some g →
        f.Apart g) ∧
      (∀ p parent, cls.parent = some p → p < c → w.class? p = some parent →
        ∀ key f, cls.placed? key = some f → parent.size ≤ f.offset)) ∧
    (∀ c, w.InOrder c → ∀ a b clsA clsB key key' f g, w.descends c a = true →
      w.descends c b = true → w.class? a = some clsA → w.class? b = some clsB →
      clsA.placed? key = some f → clsB.placed? key' = some g → (a, key) ≠ (b, key') →
      f.Apart g) := by
  have hlayered := hw.layered
  constructor
  · intro c cls hcls
    have hlaid := hlayered c cls hcls
    refine ⟨fun key f hf => ?_, fun key key' f g hne hf hg => ?_, ?_⟩
    · have hfits := hlaid.arranged.fits_placed hf
      exact ⟨hfits.aligned, hfits.within⟩
    · exact hlaid.arranged.apart_placed hf hg hne
    · intro p parent hp hlt hparent key f hf
      exact ((hlaid.behind p parent hp hlt hparent).2.fits_placed hf).behind
  · intro c horder a b clsA clsB key key' f g ha hb hclsA hclsB hf hg hne
    by_cases hab : a = b
    · subst hab
      cases hclsA.symm.trans hclsB
      exact (hlayered a clsA hclsA).arranged.apart_placed hf hg fun h => hne (by rw [h])
    · obtain ⟨i, -, hi⟩ := descends_iff.1 ha
      obtain ⟨j, -, hj⟩ := descends_iff.1 hb
      rcases Nat.le_total i j with hij | hji
      · exact (hlayered.apart_of_ancestors hw.sane horder hi hj hij hab hclsA hclsB hf hg).symm
      · exact hlayered.apart_of_ancestors hw.sane horder hj hi hji (Ne.symm hab) hclsB hclsA hg hf

/-- Imps have fireballs behind what all things have. -/
theorem object_layout_sound_imp :
    let w := (empty.load "[[[\"Thing\",null,[[\"alive\",\"bool\"],[\"health\",\"int\"]]],
      [\"Imp\",\"thing\",[[\"fireballs\",\"double\"]]]]]").2
    let health : Field := ⟨"health", .int, 4, {}⟩
    let fireballs : Field := ⟨"fireballs", .double, 8, {}⟩
    ((w.class? 0).bind (·.placed? "health") = some health ∧
      (w.class? 1).bind (·.placed? "fireballs") = some fireballs ∧ w.lineage 1 = [1, 0] ∧
      w.parent? 1 = some 0 ∧ w.parent? 0 = none) ∧
    w.InOrder 1 ∧ health.Apart fireballs := by
  intro w health fireballs
  have hshape : (w.class? 0).bind (·.placed? "health") = some health ∧
      (w.class? 1).bind (·.placed? "fireballs") = some fireballs ∧ w.lineage 1 = [1, 0] ∧
      w.parent? 1 = some 0 ∧ w.parent? 0 = none := by
    decide +kernel
  obtain ⟨hhealth, hfireballs, hlineage, hparent, hroot⟩ := hshape
  have horder : w.InOrder 1 := by
    intro k p hk hp
    simp only [descends, hlineage, List.contains_cons, List.contains_nil, Bool.or_false,
      Bool.or_eq_true, beq_iff_eq] at hk
    rcases hk with rfl | rfl
    · cases hparent.symm.trans hp
      exact Nat.one_pos
    · cases hroot.symm.trans hp
  obtain ⟨thing, hthing, hf⟩ := Option.bind_eq_some_iff.1 hhealth
  obtain ⟨imp, himp, hg⟩ := Option.bind_eq_some_iff.1 hfireballs
  have hdescends (k : ClassId) (hk : k ∈ [1, 0]) : w.descends 1 k = true := by
    simpa [descends, hlineage] using hk
  exact ⟨⟨hhealth, hfireballs, hlineage, hparent, hroot⟩, horder,
    (object_layout_sound (.load _ .empty)).2 1 horder 0 1 thing imp _ _ health fireballs
      (hdescends 0 (by simp)) (hdescends 1 (by simp)) hthing himp hf hg (by simp)⟩

/-- A class that is declared before its parent has its field where the parent has one. -/
theorem forward_parent_overlaps :
    let text := "[[[\"Imp\",\"Thing\",[[\"fireballs\",\"int\"]]],[\"Thing\",null,[[\"health\",\"int\"]]]]]"
    let w := (empty.load text).2
    let fireballs : Field := ⟨"fireballs", .int, 0, {}⟩
    let health : Field := ⟨"health", .int, 0, {}⟩
    (empty.load text).1.toOption = some () ∧ w.lineage 0 = [0, 1] ∧
      (w.class? 0).bind (·.placed? "fireballs") = some fireballs ∧
      (w.class? 1).bind (·.placed? "health") = some health ∧
      (w.class? 1).map Class.size = some 8 ∧ ¬ health.Apart fireballs := by
  decide +kernel

end World

end ActorScript
