import ActorScript.Lowering.Statement
import Mathlib.Data.List.Infix
import Mathlib.Data.Set.Basic

/-! # Runs of the lowering without a fault

A draft is finished only if no fault was noted on the way, and faults are never taken back.
So a finished function comes from a run in which every step went well, and such a run can
be taken apart step by step.
-/

namespace ActorScript

variable {u : PUnit} {n : Nat} {op : Op}

/-! ## Steps of the assembler -/

namespace Assembler

/-- A change that leaves the code as it is. -/
inductive Aside : Assembler → Assembler → Prop
  | note (s : Assembler) (fault : AssemblyFault) : Aside s { s with faults := s.faults.push fault }
  | registers (s : Assembler) (pools : Banks RegisterPool) : Aside s { s with pools }
  | int (s : Assembler) (value : Int32) :
      Aside s { s with ints := (s.ints.intern value).2 }
  | float (s : Assembler) (bits : UInt64) : Aside s { s with floats := (s.floats.intern bits).2 }
  | string (s : Assembler) (value : String) :
      Aside s { s with strings := (s.strings.intern value).2 }
  | address (s : Assembler) (value : Pooled) :
      Aside s { s with addresses := (s.addresses.intern value).2 }
  | name (s : Assembler) (text : String) (new : s.names.findIdx? (Text.sameName text) = none) :
      Aside s { s with names := s.names.push text }
  | returns (s : Assembler) (returns : List String) : Aside s { s with returns }

theorem Aside.code {s s' : Assembler} (h : s.Aside s') : s'.code = s.code := by
  cases h <;> rfl

/-- A relation that holds along all changes but those of the code. -/
class Tracks (R : Assembler → Assembler → Prop) : Prop where
  refl : ∀ s, R s s
  trans : ∀ {s₁ s₂ s₃}, R s₁ s₂ → R s₂ s₃ → R s₁ s₃
  aside : ∀ {s s'}, s.Aside s' → R s s'

def SameCode (s s' : Assembler) : Prop :=
  s'.code = s.code

instance : Tracks SameCode :=
  ⟨fun _ => rfl, fun h h' => h'.trans h, Aside.code⟩

def KeepsFaults (s s' : Assembler) : Prop :=
  s.faults.toList <+: s'.faults.toList

instance : Tracks KeepsFaults :=
  ⟨fun _ => List.prefix_rfl, List.IsPrefix.trans, by rintro _ _ ⟨⟩ <;> simp [KeepsFaults]⟩

end Assembler

open Assembler (Tracks)

namespace Assembly

variable {α β : Type}

/-- Every state is left for one that is related to it. -/
class Takes (R : Assembler → Assembler → Prop) (x : Assembly α) : Prop where
  runs : ∀ s, R s (x.run s).2

abbrev Safe (x : Assembly α) : Prop :=
  Takes Assembler.KeepsFaults x

/-- A run of the assembler that notes no fault. -/
structure Does (x : Assembly α) (s : Assembler) (a : α) (s' : Assembler) : Prop where
  run : x.run s = (a, s')
  faultless : s'.faults = s.faults

namespace Takes

variable {R : Assembler → Assembler → Prop} [Tracks R] (bank? : Option Bank) (value : Int32)
  (name : String) (op : Op) (a b c : Operand) (reg count source target : Nat)

instance pure (a : α) : Takes R (Pure.pure a : Assembly α) :=
  ⟨Tracks.refl⟩

instance bind (x : Assembly α) (f : α → Assembly β) [hx : Takes R x] [hf : ∀ a, Takes R (f a)] :
    Takes R (x >>= f) :=
  ⟨fun s => Tracks.trans (hx.runs s) ((hf _).runs _)⟩

omit [Tracks R] in
instance ite (c : Prop) [Decidable c] (x y : Assembly α) [hx : Takes R x] [hy : Takes R y] :
    Takes R (if c then x else y) := by
  split <;> assumption

omit [Tracks R] in
instance discard (x : Assembly α) [hx : Takes R x] : Takes R (Functor.discard x : Assembly PUnit) :=
  ⟨fun s => hx.runs s⟩

instance get : Takes R (MonadState.get : Assembly Assembler) :=
  ⟨Tracks.refl⟩

instance note (fault : AssemblyFault) : Takes R (Assembly.note fault) :=
  ⟨fun s => Tracks.aside (.note s fault)⟩

instance setReturns (returns : List String) : Takes R (Assembly.setReturns returns) :=
  ⟨fun s => Tracks.aside (.returns s returns)⟩

instance live : Takes R (Assembly.live bank?) :=
  ⟨Tracks.refl⟩

instance allocMany : Takes R (Assembly.allocMany bank? count) := by
  refine ⟨fun s => ?_⟩
  simp only [Assembly.allocMany, StateT.run_bind, StateT.run_get, pure_bind]
  split
  · exact Tracks.aside (.registers s _)
  · exact Tracks.aside (.note s _)

instance alloc : Takes R (Assembly.alloc bank?) :=
  allocMany bank? 1

instance release : Takes R (Assembly.release bank? reg count) := by
  cases bank? with
  | none => exact pure ()
  | some bank =>
    refine ⟨fun s => Tracks.trans (Tracks.aside (.registers s (s.pools.set bank
      ((s.pools.get bank).release reg count).2))) ?_⟩
    exact (ite (((s.pools.get bank).release reg count).1 = true) (Pure.pure ())
      (Assembly.note (.doubleFree bank reg))).runs _

instance reuse : Takes R (Assembly.reuse bank? reg) := by
  cases bank? with
  | none => exact pure ()
  | some bank =>
    refine ⟨fun s => ?_⟩
    simp only [Assembly.reuse, StateT.run_bind, StateT.run_get, pure_bind]
    split
    · exact Tracks.aside (.registers s _)
    · exact Tracks.aside (.note s _)

instance allocPlace : Takes R (Place.alloc bank?) := by
  unfold Place.alloc
  infer_instance

instance freePlace (p : Place) : Takes R p.free := by
  unfold Place.free
  infer_instance

instance intConstant : Takes R (Assembly.intConstant value) :=
  ⟨fun s => Tracks.aside (.int s value)⟩

instance floatConstant (bits : UInt64) : Takes R (Assembly.floatConstant bits) :=
  ⟨fun s => Tracks.aside (.float s bits)⟩

instance stringConstant (value : String) : Takes R (Assembly.stringConstant value) :=
  ⟨fun s => Tracks.aside (.string s value)⟩

instance addressConstant (value : Pooled) : Takes R (Assembly.addressConstant value) :=
  ⟨fun s => Tracks.aside (.address s value)⟩

instance nameIndex : Takes R (Assembly.nameIndex name) := by
  refine ⟨fun s => ?_⟩
  rw [Assembly.nameIndex, StateT.run_modifyGet]
  cases found : s.names.findIdx? (Text.sameName name) with
  | some index => exact Tracks.refl s
  | none => exact Tracks.aside (.name s name found)

instance nameConstant : Takes R (Assembly.nameConstant name) :=
  inferInstanceAs (Takes R (Assembly.nameIndex name >>= _))

instance position : Takes R Assembly.position :=
  inferInstanceAs (Takes R (MonadState.get >>= _))

instance checkByte : Takes R (Assembly.checkByte op a) := by
  unfold Assembly.checkByte
  infer_instance

instance checkJump : Takes R (Assembly.checkJump source target) := by
  unfold Assembly.checkJump
  infer_instance

/-! Steps on the code do what their changes of it do. -/

instance abc [Takes R (append (.abc op a b c))] : Takes R (Assembly.abc op a b c) := by
  unfold Assembly.abc
  infer_instance

instance abx [Takes R (append (.abx op a b))] : Takes R (Assembly.abx op a b) := by
  unfold Assembly.abx
  infer_instance

instance asbx (offset : Int) [Takes R (append (.asbx op a offset))] :
    Takes R (Assembly.asbx op a offset) := by
  unfold Assembly.asbx
  infer_instance

instance loadInt [∀ i, Takes R (append i)] : Takes R (Assembly.loadInt reg value) := by
  unfold Assembly.loadInt
  infer_instance

instance jumpForward [Takes R (append (.asbx .jmp (.imm 0) 0))] : Takes R Assembly.jumpForward :=
  asbx _ _ _

instance jumpTo [∀ i, Takes R (append i)] : Takes R (Assembly.jumpTo target) := by
  unfold Assembly.jumpTo
  infer_instance

instance patchTo [∀ f : Assembler → Array Instr, Takes R (modify fun s => { s with code := f s })] :
    Takes R (Assembly.patchTo source target) := by
  unfold Assembly.patchTo
  infer_instance

instance patch [∀ f : Assembler → Array Instr, Takes R (modify fun s => { s with code := f s })] :
    Takes R (Assembly.patch source) := by
  unfold Assembly.patch
  infer_instance

end Takes

instance Safe.append (i : Instr) : Safe (append i) :=
  ⟨fun _ => List.prefix_rfl⟩

instance Safe.modifyCode (f : Assembler → Array Instr) :
    Safe (modify fun s : Assembler => { s with code := f s }) :=
  ⟨fun _ => List.prefix_rfl⟩

/-! ### Taking runs apart -/

section Does

variable {s s' : Assembler}

@[simp]
theorem does_pure {a b : α} : Does (pure a) s b s' ↔ b = a ∧ s' = s := by
  constructor
  · rintro ⟨run, -⟩
    cases run
    exact ⟨rfl, rfl⟩
  · rintro ⟨rfl, rfl⟩
    exact ⟨rfl, rfl⟩

@[simp]
theorem does_bind {x : Assembly α} {f : α → Assembly β} {b : β} [hx : Safe x]
    [hf : ∀ a, Safe (f a)] :
    Does (x >>= f) s b s' ↔ ∃ a s1, Does x s a s1 ∧ Does (f a) s1 b s' := by
  constructor
  · rintro ⟨run, faultless⟩
    let r := x.run s
    have hrun : (f r.1).run r.2 = (b, s') := run
    have before := hx.runs s
    have after : r.2.faults.toList <+: s'.faults.toList := by
      have := (hf r.1).runs r.2
      rwa [hrun] at this
    rw [faultless] at after
    have same : r.2.faults = s.faults := by
      rw [← Array.toList_inj]
      exact (before.eq_of_length_le after.length_le).symm
    exact ⟨r.1, r.2, ⟨rfl, same⟩, hrun, faultless.trans same.symm⟩
  · rintro ⟨a, s1, ⟨run, faultless⟩, ⟨run', faultless'⟩⟩
    refine ⟨?_, faultless'.trans faultless⟩
    change (f (x.run s).1).run (x.run s).2 = _
    rw [run, run']

@[simp]
theorem does_discard {x : Assembly α} : Does (Functor.discard x) s u s' ↔ ∃ a, Does x s a s' := by
  constructor
  · rintro ⟨run, faultless⟩
    have run : ((), (x.run s).2) = (u, s') := run
    cases run
    exact ⟨(x.run s).1, rfl, faultless⟩
  · rintro ⟨a, run, faultless⟩
    refine ⟨?_, faultless⟩
    change ((), (x.run s).2) = _
    rw [run]

@[simp]
theorem does_get {s0 : Assembler} : Does MonadState.get s s0 s' ↔ s0 = s ∧ s' = s := by
  constructor
  · rintro ⟨run, -⟩
    cases run
    exact ⟨rfl, rfl⟩
  · rintro ⟨rfl, rfl⟩
    exact ⟨rfl, rfl⟩

theorem does_modify {f : Assembler → Assembler} (hf : (f s).faults = s.faults) :
    Does (modify f) s u s' ↔ s' = f s := by
  constructor
  · rintro ⟨run, -⟩
    cases run
    rfl
  · rintro rfl
    exact ⟨rfl, hf⟩

@[simp]
theorem not_does_note {fault : AssemblyFault} {u : Unit} : ¬ Does (note fault) s u s' := by
  rintro ⟨run, faultless⟩
  cases run
  have := congrArg Array.size faultless
  simp at this

@[simp]
theorem does_append {i : Instr} :
    Does (append i) s n s' ↔ n = s.code.size ∧ s' = { s with code := s.code.push i } := by
  constructor
  · rintro ⟨run, -⟩
    cases run
    exact ⟨rfl, rfl⟩
  · rintro ⟨rfl, rfl⟩
    exact ⟨rfl, rfl⟩

theorem does_checkByte {operand : Operand} {u : Unit} :
    Does (checkByte op operand) s u s' ↔ operand.value ≤ 255 ∧ s' = s := by
  unfold checkByte
  split
  · simp; omega
  · simp; omega

theorem does_abc {a b c : Operand} :
    Does (abc op a b c) s n s' ↔
      (a.value ≤ 255 ∧ b.value ≤ 255 ∧ c.value ≤ 255) ∧
        n = s.code.size ∧ s' = { s with code := s.code.push (.abc op a b c) } := by
  simp [abc, does_checkByte, and_assoc]

theorem does_abx {a bx : Operand} :
    Does (abx op a bx) s n s' ↔
      a.value ≤ 255 ∧ n = s.code.size ∧ s' = { s with code := s.code.push (.abx op a bx) } := by
  simp [abx, does_checkByte]

theorem does_asbx {a : Operand} {offset : Int} :
    Does (asbx op a offset) s n s' ↔
      (a.value ≤ 255 ∧ fitsOffset offset) ∧
        n = s.code.size ∧ s' = { s with code := s.code.push (.asbx op a offset) } := by
  unfold asbx
  by_cases fits : fitsOffset offset <;> simp [does_checkByte, fits]

theorem does_checkJump {source target : Nat} {u : Unit} :
    Does (checkJump source target) s u s' ↔
      fitsOffset (jumpOffset source target) ∧ s' = s := by
  unfold checkJump
  by_cases fits : fitsOffset (jumpOffset source target) <;> simp [fits]

theorem does_patchTo {source target : Nat} {u : Unit} :
    Does (patchTo source target) s u s' ↔
      fitsOffset (jumpOffset source target) ∧
        s' = { s with
          code := s.code.modify source (·.withOffset (jumpOffset source target)) } := by
  simp [patchTo, does_checkJump, does_modify]

end Does

end Assembly

/-! ## Steps of the lowering -/

namespace Draft

def faults (d : Draft) : List AssemblyFault :=
  d.assembler.faults.toList

end Draft

class Safe {α : Type} (x : Lowering α) : Prop where
  keeps : ∀ t d, d.faults <+: ((x.run t).run d).2.faults

/-- A run from one draft to another that notes no fault. -/
structure Yields {α : Type} (t : Target) (x : Lowering α) (d : Draft) (a : α) (d' : Draft) :
    Prop where
  run : (x.run t).run d = (a, d')
  faultless : d'.faults = d.faults

namespace Safe

variable {α β γ : Type}

instance pure (a : α) : Safe (Pure.pure a : Lowering α) :=
  ⟨fun _ _ => List.prefix_rfl⟩

instance bind (x : Lowering α) (f : α → Lowering β) [hx : Safe x] [hf : ∀ a, Safe (f a)] :
    Safe (x >>= f) :=
  ⟨fun t d => (hx.keeps t d).trans ((hf _).keeps t _)⟩

theorem andThen {x : Lowering α} {f : α → Lowering β} (hx : Safe x) (hf : ∀ a, Safe (f a)) :
    Safe (x >>= f) :=
  bind x f

-- Without these three the search asks for the rest twice, with and without the unused value.
instance seq (x : Lowering α) (y : Lowering β) [hx : Safe x] [hy : Safe y] :
    Safe (x >>= fun _ => y) :=
  hx.andThen fun _ => hy

instance through (x : Lowering α) (f : α → Lowering β) (g : β → Lowering γ) [hx : Safe x]
    [hf : ∀ a, Safe (f a)] [hg : ∀ b, Safe (g b)] : Safe (x >>= fun a => f a >>= g) :=
  hx.andThen fun a => (hf a).andThen hg

instance throughBoth (x : Lowering α) (f g : α → Lowering β) (h : β → Lowering γ) [hx : Safe x]
    [hf : ∀ a, Safe (f a)] [hg : ∀ a, Safe (g a)] [hh : ∀ b, Safe (h b)] :
    Safe (x >>= fun a => f a >>= fun _ => g a >>= h) :=
  hx.andThen fun a => (hf a).andThen fun _ => (hg a).andThen hh

instance ite (c : Prop) [Decidable c] (x y : Lowering α) [hx : Safe x] [hy : Safe y] :
    Safe (if c then x else y) := by
  split <;> assumption

instance discard (x : Lowering α) [hx : Safe x] : Safe (Functor.discard x : Lowering PUnit) :=
  ⟨fun t d => hx.keeps t d⟩

instance map (f : α → β) (x : Lowering α) [hx : Safe x] : Safe (f <$> x) :=
  ⟨fun t d => hx.keeps t d⟩

instance lift (x : Assembly α) [hx : Assembly.Safe x] : Safe (liftM x : Lowering α) :=
  ⟨fun _ d => hx.runs d.assembler⟩

instance allocPlace (bank? : Option Bank) : Safe (liftM (Place.alloc bank?) : Lowering Place) :=
  lift _

instance freePlace (p : Place) : Safe (liftM p.free : Lowering Unit) :=
  lift _

instance jumpForward : Safe (liftM Assembly.jumpForward : Lowering Nat) :=
  lift _

instance patch (source : Nat) : Safe (liftM (Assembly.patch source) : Lowering Unit) :=
  lift _

instance patchTo (source target : Nat) :
    Safe (liftM (Assembly.patchTo source target) : Lowering Unit) :=
  lift _

instance read : Safe (MonadReader.read : Lowering Target) :=
  ⟨fun _ _ => List.prefix_rfl⟩

instance getDraft : Safe (getThe Draft : Lowering Draft) :=
  ⟨fun _ _ => List.prefix_rfl⟩

instance modifyHomes (f : Draft → Array (Option Place)) :
    Safe (modifyThe Draft fun d => { d with homes := f d } : Lowering PUnit) :=
  ⟨fun _ _ => List.prefix_rfl⟩

instance modifyLoops (f : Draft → List LoopJumps) :
    Safe (modifyThe Draft fun d => { d with loops := f d } : Lowering PUnit) :=
  ⟨fun _ _ => List.prefix_rfl⟩

instance modifyAssigned (f : Draft → List Place) :
    Safe (modifyThe Draft fun d => { d with assigned := f d } : Lowering PUnit) :=
  ⟨fun _ _ => List.prefix_rfl⟩

theorem forM {l : List α} {f : α → Lowering PUnit} (hf : ∀ a ∈ l, Safe (f a)) :
    Safe (l.forM f) := by
  induction l with
  | nil => exact pure _
  | cons a l ih =>
    have := hf a (by simp)
    have := ih fun b hb => hf b (by simp [hb])
    exact inferInstanceAs (Safe (f a >>= fun _ => l.forM f))

instance forEach (l : List α) (f : α → Lowering PUnit) [∀ a, Safe (f a)] : Safe (l.forM f) :=
  forM fun _ _ => inferInstance

theorem mapM {l : List α} {f : α → Lowering β} (hf : ∀ a ∈ l, Safe (f a)) :
    Safe (l.mapM f) := by
  induction l with
  | nil =>
    rw [List.mapM_nil]
    exact pure _
  | cons a l ih =>
    have := hf a (by simp)
    have := ih fun b hb => hf b (by simp [hb])
    rw [List.mapM_cons]
    infer_instance

instance mapEach (l : List α) (f : α → Lowering β) [∀ a, Safe (f a)] : Safe (l.mapM f) :=
  mapM fun _ _ => inferInstance

end Safe

section Yields

variable {α β : Type} {t : Target} {d d' : Draft}

@[simp]
theorem yields_pure {a b : α} : Yields t (pure a) d b d' ↔ b = a ∧ d' = d := by
  constructor
  · rintro ⟨run, -⟩
    cases run
    exact ⟨rfl, rfl⟩
  · rintro ⟨rfl, rfl⟩
    exact ⟨rfl, rfl⟩

@[simp]
theorem yields_bind {x : Lowering α} {f : α → Lowering β} {b : β} [hx : Safe x]
    [hf : ∀ a, Safe (f a)] :
    Yields t (x >>= f) d b d' ↔ ∃ a d1, Yields t x d a d1 ∧ Yields t (f a) d1 b d' := by
  constructor
  · rintro ⟨run, faultless⟩
    let r := (x.run t).run d
    have hrun : ((f r.1).run t).run r.2 = (b, d') := run
    have before : d.faults <+: r.2.faults := hx.keeps t d
    have after : r.2.faults <+: d'.faults := by
      have := (hf r.1).keeps t r.2
      rwa [hrun] at this
    rw [faultless] at after
    have same : r.2.faults = d.faults := (before.eq_of_length_le after.length_le).symm
    exact ⟨r.1, r.2, ⟨rfl, same⟩, hrun, faultless.trans same.symm⟩
  · rintro ⟨a, d1, ⟨run, faultless⟩, ⟨run', faultless'⟩⟩
    refine ⟨?_, faultless'.trans faultless⟩
    change ((f ((x.run t).run d).1).run t).run ((x.run t).run d).2 = _
    rw [run, run']

theorem yields_forM_cons {a : α} {l : List α} {f : α → Lowering PUnit} [∀ a, Safe (f a)] :
    Yields t ((a :: l).forM f) d u d' ↔
      ∃ v d1, Yields t (f a) d v d1 ∧ Yields t (l.forM f) d1 u d' :=
  yields_bind (x := f a) (f := fun _ => l.forM f)

theorem Yields.forM {P : Draft → Prop} {l : List α} {f : α → Lowering PUnit} [∀ a, Safe (f a)]
    (h : Yields t (l.forM f) d u d') (hd : P d)
    (hstep : ∀ a ∈ l, ∀ {d1 v d2}, Yields t (f a) d1 v d2 → P d1 → P d2) : P d' := by
  induction l generalizing d with
  | nil =>
    obtain ⟨-, rfl⟩ := yields_pure.1 h
    exact hd
  | cons a rest ih =>
    obtain ⟨_, d1, hfirst, hrest⟩ := yields_forM_cons.1 h
    exact ih hrest (hstep a (by simp) hfirst hd) fun a ha => hstep a (by simp [ha])

theorem yields_lift {x : Assembly α} {a : α} :
    Yields t (liftM x) d a d' ↔
      ∃ s, Assembly.Does x d.assembler a s ∧ d' = { d with assembler := s } := by
  constructor
  · rintro ⟨run, faultless⟩
    let r := x.run d.assembler
    have hrun : (r.1, { d with assembler := r.2 }) = (a, d') := run
    cases hrun
    exact ⟨r.2, ⟨rfl, Array.toList_inj.1 faultless⟩, rfl⟩
  · rintro ⟨s, ⟨run, faultless⟩, rfl⟩
    refine ⟨?_, congrArg Array.toList faultless⟩
    change ((x.run d.assembler).1, { d with assembler := (x.run d.assembler).2 }) = _
    rw [run]

@[simp]
theorem yields_map {x : Lowering α} {f : α → β} {b : β} :
    Yields t (f <$> x) d b d' ↔ ∃ a, Yields t x d a d' ∧ b = f a := by
  constructor
  · rintro ⟨run, faultless⟩
    have run : (f ((x.run t).run d).1, ((x.run t).run d).2) = (b, d') := run
    cases run
    exact ⟨((x.run t).run d).1, ⟨rfl, faultless⟩, rfl⟩
  · rintro ⟨a, ⟨run, faultless⟩, rfl⟩
    refine ⟨?_, faultless⟩
    change (f ((x.run t).run d).1, ((x.run t).run d).2) = _
    rw [run]

@[simp]
theorem yields_discard {x : Lowering α} :
    Yields t (Functor.discard x) d u d' ↔ ∃ a, Yields t x d a d' := by
  constructor
  · rintro ⟨run, faultless⟩
    have run : ((), ((x.run t).run d).2) = (u, d') := run
    cases run
    exact ⟨((x.run t).run d).1, rfl, faultless⟩
  · rintro ⟨a, run, faultless⟩
    refine ⟨?_, faultless⟩
    change ((), ((x.run t).run d).2) = _
    rw [run]

theorem yields_lift_bind {x : Assembly α} {f : α → Assembly β} {b : β} [Assembly.Safe x]
    [∀ a, Assembly.Safe (f a)] : Yields t (liftM (x >>= f)) d b d' ↔
      ∃ a d1, Yields t (liftM x) d a d1 ∧ Yields t (liftM (f a)) d1 b d' := by
  simp only [yields_lift, Assembly.does_bind]
  constructor
  · rintro ⟨s, ⟨a, s1, hx, hf⟩, rfl⟩
    exact ⟨a, _, ⟨s1, hx, rfl⟩, s, hf, rfl⟩
  · rintro ⟨a, _, ⟨s1, hx, rfl⟩, s, hf, rfl⟩
    exact ⟨s, ⟨a, s1, hx, hf⟩, rfl⟩

/-- Reading and changing the surroundings notes no fault, whatever follows. -/
@[simp]
theorem yields_read_bind {f : Target → Lowering β} {b : β} :
    Yields t (MonadReader.read >>= f) d b d' ↔ Yields t (f t) d b d' :=
  ⟨fun h => ⟨h.run, h.faultless⟩, fun h => ⟨h.run, h.faultless⟩⟩

@[simp]
theorem yields_getDraft_bind {f : Draft → Lowering β} {b : β} :
    Yields t (getThe Draft >>= f) d b d' ↔ Yields t (f d) d b d' :=
  ⟨fun h => ⟨h.run, h.faultless⟩, fun h => ⟨h.run, h.faultless⟩⟩

@[simp]
theorem yields_getDraft {d0 : Draft} :
    Yields t (getThe Draft) d d0 d' ↔ d0 = d ∧ d' = d := by
  constructor
  · rintro ⟨run, -⟩
    cases run
    exact ⟨rfl, rfl⟩
  · rintro ⟨rfl, rfl⟩
    exact ⟨rfl, rfl⟩

theorem yields_modify {f : Draft → Draft} (hf : (f d).faults = d.faults) :
    Yields t (modifyThe Draft f) d u d' ↔ d' = f d := by
  constructor
  · rintro ⟨run, -⟩
    exact (congrArg Prod.snd run).symm
  · rintro rfl
    exact ⟨rfl, hf⟩

@[simp]
theorem yields_modifyHomes {f : Draft → Array (Option Place)} :
    Yields t (modifyThe Draft fun d => { d with homes := f d }) d u d' ↔
      d' = { d with homes := f d } :=
  yields_modify rfl

@[simp]
theorem yields_modifyLoops {f : Draft → List LoopJumps} :
    Yields t (modifyThe Draft fun d => { d with loops := f d }) d u d' ↔
      d' = { d with loops := f d } :=
  yields_modify rfl

@[simp]
theorem yields_modifyAssigned {f : Draft → List Place} :
    Yields t (modifyThe Draft fun d => { d with assigned := f d }) d u d' ↔
      d' = { d with assigned := f d } :=
  yields_modify rfl

end Yields

end ActorScript
