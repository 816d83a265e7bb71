import ActorScript.Bytecode.Place
import ActorScript.Proofs.Lowering.Draft
import ActorScript.Proofs.Lowering.Flow
import Mathlib.Data.List.Nodup

/-! # Constant pools

Whatever is asked of the assembler, no pool gets two equal entries, and entries stay where they
are. The position answered for a value is kept in sixteen bits, so it selects the value exactly
if the value is among the first 65536 entries of its pool.
-/

namespace ActorScript

variable {c : Chunk} {answer : Nat} {s : Assembler}

/-! ## Requests -/

/-- What can be asked of the assembler. -/
inductive Request where
  | int (value : Int32)
  | float (bits : UInt64)
  | string (value : String)
  | address (value : Pooled)
  | name (text : String)
  | nameIndex (text : String)
  | allocMany (bank? : Option Bank) (count : Nat)
  | release (bank? : Option Bank) (reg count : Nat)
  | reuse (bank? : Option Bank) (reg : Nat)
  | live (bank? : Option Bank)
  | abc (op : Op) (a b c : Operand)
  | abx (op : Op) (a bx : Operand)
  | asbx (op : Op) (a : Operand) (offset : Int)
  | loadInt (reg : Nat) (value : Int32)
  | position
  | jumpForward
  | jumpTo (target : Nat)
  | patch (source : Nat)
  | patchTo (source target : Nat)
  | setReturns (returns : List String)
  | note (fault : AssemblyFault)

variable {r : Request}

namespace Request

open Assembly

def silent (x : Assembly Unit) : Assembly Nat := do
  x
  return 0

/-- Does what is asked and gives the number answered, zero if there is none. -/
def perform : Request → Assembly Nat
  | .int value => intConstant value
  | .float bits => floatConstant bits
  | .string value => stringConstant value
  | .address value => addressConstant value
  | .name text => nameConstant text
  | .nameIndex text => Assembly.nameIndex text
  | .allocMany bank? count => Assembly.allocMany bank? count
  | .release bank? reg count => silent (Assembly.release bank? reg count)
  | .reuse bank? reg => silent (Assembly.reuse bank? reg)
  | .live bank? => Assembly.live bank?
  | .abc op a b c => Assembly.abc op a b c
  | .abx op a bx => Assembly.abx op a bx
  | .asbx op a offset => Assembly.asbx op a offset
  | .loadInt reg value => silent (Assembly.loadInt reg value)
  | .position => Assembly.position
  | .jumpForward => Assembly.jumpForward
  | .jumpTo target => silent (Assembly.jumpTo target)
  | .patch source => silent (Assembly.patch source)
  | .patchTo source target => silent (Assembly.patchTo source target)
  | .setReturns returns => silent (Assembly.setReturns returns)
  | .note fault => silent (Assembly.note fault)

/-- The answers to requests made one after the other, and what is left of it. -/
def performAll : List Request → Assembler → List Nat × Assembler
  | [], s => ([], s)
  | r :: rest, s =>
      let (answer, s) := r.perform.run s
      let (answers, s) := performAll rest s
      (answer :: answers, s)

theorem performAll_cons (r : Request) (rest : List Request) (s : Assembler) :
    performAll (r :: rest) s = ((r.perform.run s).1 :: (performAll rest (r.perform.run s).2).1,
      (performAll rest (r.perform.run s).2).2) := rfl

theorem length_performAll (requests : List Request) (s : Assembler) :
    (performAll requests s).1.length = requests.length := by
  induction requests generalizing s with
  | nil => rfl
  | cons r rest ih => rw [performAll_cons, List.length_cons, List.length_cons, ih]

end Request

/-! ## Pools without equal entries -/

/-- No pool has two equal entries: floats are their bits, and names are compared without regard
to the case of their letters. -/
structure Chunk.Tidy (c : Chunk) : Prop where
  ints : c.ints.toList.Nodup
  floats : c.floats.toList.Nodup
  strings : c.strings.toList.Nodup
  addresses : c.addresses.toList.Nodup
  names : (c.names.toList.map Text.fold).Nodup

/-- Entries are only added, behind those that are there, and none that is there already. -/
structure Chunk.Grows (c c' : Chunk) : Prop where
  ints : c.ints.toList <+: c'.ints.toList
  floats : c.floats.toList <+: c'.floats.toList
  strings : c.strings.toList <+: c'.strings.toList
  addresses : c.addresses.toList <+: c'.addresses.toList
  names : c.names.toList <+: c'.names.toList
  tidy : c.Tidy → c'.Tidy

namespace Chunk.Grows

theorem refl (c : Chunk) : c.Grows c :=
  ⟨List.prefix_rfl, List.prefix_rfl, List.prefix_rfl, List.prefix_rfl, List.prefix_rfl, id⟩

theorem trans {c1 c2 c3 : Chunk} (h : c1.Grows c2) (h' : c2.Grows c3) : c1.Grows c3 :=
  ⟨h.ints.trans h'.ints, h.floats.trans h'.floats, h.strings.trans h'.strings,
    h.addresses.trans h'.addresses, h.names.trans h'.names, h'.tidy ∘ h.tidy⟩

end Chunk.Grows

def Assembler.pooled (s : Assembler) : Chunk where
  ints := s.ints.entries
  floats := s.floats.entries
  strings := s.strings.entries
  addresses := s.addresses.entries
  names := s.names

section Pooled

variable (s : Assembler)

@[simp] theorem Assembler.ints_pooled : s.pooled.ints = s.ints.entries := rfl
@[simp] theorem Assembler.floats_pooled : s.pooled.floats = s.floats.entries := rfl
@[simp] theorem Assembler.strings_pooled : s.pooled.strings = s.strings.entries := rfl
@[simp] theorem Assembler.addresses_pooled : s.pooled.addresses = s.addresses.entries := rfl
@[simp] theorem Assembler.names_pooled : s.pooled.names = s.names := rfl

end Pooled

/-! ## One more entry -/

theorem ConstantPool.nodup_intern {α : Type} [DecidableEq α] [Rowed α] {pool : ConstantPool α}
    (value : α) (h : pool.entries.toList.Nodup) : (pool.intern value).2.entries.toList.Nodup := by
  obtain ⟨k, -, heq⟩ | ⟨hnew, -, hentries⟩ := pool.intern_cases value
  · rwa [heq]
  · rw [hentries, Array.toList_push]
    exact List.Nodup.append h (by simp) (by simpa using hnew)

/-- A name that is not found is told apart from all by its letters without their case. -/
theorem Text.fold_notMem {names : Array String} {text : String}
    (h : names.findIdx? (sameName text) = none) : fold text ∉ names.toList.map fold := by
  intro hv
  rw [Array.findIdx?_eq_none_iff] at h
  obtain ⟨x, hx, hfold⟩ := List.mem_map.1 hv
  simpa [sameName, hfold] using h x (by simpa using hx)

namespace Assembly

variable (s : Assembler)

theorem intConstant_run (v : Int32) : (intConstant v).run s =
    ((s.ints.intern v).1, { s with ints := (s.ints.intern v).2 }) := rfl

/-- A name is told apart from the others by its letters without their case. -/
theorem nameIndex_cases (text : String) :
    (∃ k, (s.names.toList.map Text.fold)[k]? = some (Text.fold text) ∧
      (nameIndex text).run s = (k, s)) ∨
    (Text.fold text ∉ s.names.toList.map Text.fold ∧
      (nameIndex text).run s = (s.names.size, { s with names := s.names.push text })) := by
  unfold nameIndex
  cases found : s.names.findIdx? (Text.sameName text) with
  | some k =>
    left
    obtain ⟨hk, hsame, -⟩ := Array.findIdx?_eq_some_iff_getElem.1 found
    have hfold : Text.fold text = Text.fold s.names[k] := by simpa [Text.sameName] using hsame
    exact ⟨k, by simp [hk, hfold], by rw [StateT.run_modifyGet, found]; rfl⟩
  | none =>
    exact .inr ⟨Text.fold_notMem found, by rw [StateT.run_modifyGet, found]; rfl⟩

end Assembly

/-! ## What each request does to the pools -/

/-- Entries are only added to the pools. -/
def Assembler.Interns (s s' : Assembler) : Prop :=
  s.pooled.Grows s'.pooled

theorem Assembler.Aside.interns {s s' : Assembler} (h : s.Aside s') : s.Interns s' := by
  cases h with
  | note | registers | returns => exact .refl _
  | int v =>
    exact { Chunk.Grows.refl s.pooled with
      ints := s.ints.prefix_intern v
      tidy := fun h => { h with ints := ConstantPool.nodup_intern v h.ints } }
  | float bits =>
    exact { Chunk.Grows.refl s.pooled with
      floats := s.floats.prefix_intern bits
      tidy := fun h => { h with floats := ConstantPool.nodup_intern bits h.floats } }
  | string v =>
    exact { Chunk.Grows.refl s.pooled with
      strings := s.strings.prefix_intern v
      tidy := fun h => { h with strings := ConstantPool.nodup_intern v h.strings } }
  | address v =>
    exact { Chunk.Grows.refl s.pooled with
      addresses := s.addresses.prefix_intern v
      tidy := fun h => { h with addresses := ConstantPool.nodup_intern v h.addresses } }
  | name text new =>
    exact { Chunk.Grows.refl s.pooled with
      names := by simp
      tidy := fun h => { h with
        names := by
          rw [Assembler.names_pooled, Array.toList_push, List.map_append]
          exact List.Nodup.append h.names (by simp) (by simpa using Text.fold_notMem new) } }

instance : Assembler.Tracks Assembler.Interns :=
  ⟨fun _ => .refl _, Chunk.Grows.trans, Assembler.Aside.interns⟩

namespace Assembly

instance interns_append (i : Instr) : Takes Assembler.Interns (append i) :=
  ⟨fun _ => .refl _⟩

instance interns_modifyCode (f : Assembler → Array Instr) :
    Takes Assembler.Interns (modify fun s => { s with code := f s }) :=
  ⟨fun _ => .refl _⟩

instance takes_silent {R : Assembler → Assembler → Prop} [Assembler.Tracks R] (x : Assembly Unit)
    [Takes R x] : Takes R (Request.silent x) := by
  unfold Request.silent
  infer_instance

end Assembly

/-- Every request only adds new entries to the pools. -/
theorem Request.grows (r : Request) (s : Assembler) :
    s.pooled.Grows (r.perform.run s).2.pooled := by
  have h : Assembly.Takes Assembler.Interns r.perform := by
    cases r <;> unfold perform <;> infer_instance
  exact h.runs s

theorem Request.grows_performAll (requests : List Request) (s : Assembler) :
    s.pooled.Grows (performAll requests s).2.pooled := by
  induction requests generalizing s with
  | nil => exact .refl _
  | cons r rest ih => exact (r.grows s).trans (ih _)

/-! ## Where the values are -/

namespace Request

/-- The value asked for is at some position of its pool, of which the sixteen low bits are
answered. A name is at the position that is itself at such a position of the integers. -/
def Located (c : Chunk) (answer : Nat) : Request → Prop
  | .int v => ∃ k, answer = k % 65536 ∧ c.ints.toList[k]? = some v
  | .float bits => ∃ k, answer = k % 65536 ∧ c.floats.toList[k]? = some bits
  | .string v => ∃ k, answer = k % 65536 ∧ c.strings.toList[k]? = some v
  | .address v => ∃ k, answer = k % 65536 ∧ c.addresses.toList[k]? = some v
  | .name text => ∃ k p, answer = k % 65536 ∧ c.ints.toList[k]? = some (Int32.ofNat p) ∧
      (c.names.toList.map Text.fold)[p]? = some (Text.fold text)
  | _ => True

theorem perform_located (r : Request) (s : Assembler) :
    r.Located (r.perform.run s).2.pooled (r.perform.run s).1 := by
  have hpool {α : Type} [DecidableEq α] [Rowed α] (pool : ConstantPool α) (v : α) :
      ∃ k, (pool.intern v).1 = k % 65536 ∧ (pool.intern v).2.entries.toList[k]? = some v := by
    simpa using pool.intern_found v
  cases r with
  | int v => exact hpool s.ints v
  | float bits => exact hpool s.floats bits
  | string v => exact hpool s.strings v
  | address v => exact hpool s.addresses v
  | name text =>
    have hname : ∃ p s', (Assembly.nameIndex text).run s = (p, s') ∧
        (s'.names.toList.map Text.fold)[p]? = some (Text.fold text) := by
      obtain ⟨p, hp, heq⟩ | ⟨-, heq⟩ := Assembly.nameIndex_cases s text
      · exact ⟨p, s, heq, hp⟩
      · exact ⟨_, _, heq, by simp⟩
    obtain ⟨p, s', heq, hp⟩ := hname
    obtain ⟨k, hk, hv⟩ := hpool s'.ints (Int32.ofNat p)
    have hrun : (perform (.name text)).run s = (Assembly.intConstant (Int32.ofNat p)).run s' := by
      change (Assembly.intConstant (Int32.ofNat ((Assembly.nameIndex text).run s).1)).run
        ((Assembly.nameIndex text).run s).2 = _
      rw [heq]
    rw [hrun]
    exact ⟨k, p, hk, hv, hp⟩
  | _ => trivial

theorem Located.mono {c' : Chunk} (h : c.Grows c') (hr : r.Located c answer) :
    r.Located c' answer := by
  cases r with
  | int v => exact hr.imp fun k hk => ⟨hk.1, getElem?_of_extends h.ints hk.2⟩
  | float bits => exact hr.imp fun k hk => ⟨hk.1, getElem?_of_extends h.floats hk.2⟩
  | string v => exact hr.imp fun k hk => ⟨hk.1, getElem?_of_extends h.strings hk.2⟩
  | address v => exact hr.imp fun k hk => ⟨hk.1, getElem?_of_extends h.addresses hk.2⟩
  | name text =>
    obtain ⟨k, p, hk, hv, hp⟩ := hr
    exact ⟨k, p, hk, getElem?_of_extends h.ints hv, getElem?_of_extends (h.names.map _) hp⟩
  | _ => trivial

/-- What was answered for a value is where the value is in the end. -/
theorem performAll_located (requests : List Request) (s : Assembler)
    (h : (r, answer) ∈ requests.zip (performAll requests s).1) :
    r.Located (performAll requests s).2.pooled answer := by
  induction requests generalizing s with
  | nil => simp at h
  | cons first rest ih =>
    rw [performAll_cons, List.zip_cons_cons, List.mem_cons] at h
    rcases h with heq | h
    · cases heq
      exact (perform_located _ s).mono (grows_performAll rest _)
    · exact ih _ h

end Request

/-! ## What the answers select -/

def Chunk.nameAt? (c : Chunk) (index : Nat) : Option String := do
  let position ← c.ints[index]?
  if 0 ≤ position then c.names[position.toInt.toNat]? else none

namespace Request

/-- An answer selects an entry equal to the value asked for. -/
def Selects (c : Chunk) (answer : Nat) : Request → Prop
  | .int v => c.ints[answer]? = some v
  | .float bits => c.floats[answer]? = some bits
  | .string v => c.strings[answer]? = some v
  | .address v => c.addresses[answer]? = some v
  | .name text => (c.nameAt? answer).map Text.fold = some (Text.fold text)
  | _ => True

/-- The value asked for is among the entries that sixteen bits reach. The position of a name has
to be among those integers, and not be negative there. -/
def Reached (c : Chunk) : Request → Prop
  | .int v => v ∈ c.ints.toList.take 65536
  | .float bits => bits ∈ c.floats.toList.take 65536
  | .string v => v ∈ c.strings.toList.take 65536
  | .address v => v ∈ c.addresses.toList.take 65536
  | .name text => ∃ p < 2147483648, (c.names.toList.map Text.fold)[p]? = some (Text.fold text) ∧
      Int32.ofNat p ∈ c.ints.toList.take 65536
  | _ => True

end Request

/-- Among entries that differ, the low bits of a position select the entry there exactly if they
are the position. -/
theorem getElem?_mod_iff {α : Type} {xs : List α} (hxs : xs.Nodup) {k : Nat} {x : α}
    (hk : xs[k]? = some x) (n : Nat) (hn : 0 < n) : xs[k % n]? = some x ↔ x ∈ xs.take n := by
  constructor
  · intro h
    rw [List.mem_take_iff_getElem]
    obtain ⟨hlt, hx⟩ := List.getElem?_eq_some_iff.1 h
    exact ⟨k % n, by have := Nat.mod_lt k hn; omega, hx⟩
  · intro h
    obtain ⟨j, hj, hx⟩ := List.mem_take_iff_getElem.1 h
    have hj' : xs[j]? = some x := by rw [List.getElem?_eq_some_iff]; exact ⟨by omega, hx⟩
    have hkj : k = j :=
      (List.getElem?_inj (List.getElem?_eq_some_iff.1 hk).1 hxs).1 (hk.trans hj'.symm)
    rw [hkj, Nat.mod_eq_of_lt (by omega), hj']

/-- What is answered for a position selects the value there exactly if sixteen bits reach it. -/
theorem selects_iff_mem_take {α : Type} {xs : Array α} {v : α} (hxs : xs.toList.Nodup)
    (h : ∃ k, answer = k % 65536 ∧ xs.toList[k]? = some v) :
    xs[answer]? = some v ↔ v ∈ xs.toList.take 65536 := by
  obtain ⟨k, rfl, hk⟩ := h
  rw [← Array.getElem?_toList]
  exact getElem?_mod_iff hxs hk 65536 (by decide)

theorem mem_take_of_size_le {α : Type} {xs : Array α} {v : α} {k : Nat} (hxs : xs.size ≤ 65536)
    (hk : xs.toList[k]? = some v) : v ∈ xs.toList.take 65536 := by
  rw [List.take_of_length_le (by simpa using hxs)]
  exact List.mem_of_getElem? hk

theorem Chunk.nameAt?_eq_some {index : Nat} {name : String} :
    c.nameAt? index = some name ↔
      ∃ p < 2147483648, c.ints[index]? = some (Int32.ofNat p) ∧ c.names[p]? = some name := by
  simp only [nameAt?, Option.bind_eq_bind, Option.bind_eq_some_iff]
  constructor
  · rintro ⟨position, hposition, hname⟩
    split at hname
    next hpos =>
      have hpos : 0 ≤ position.toInt := Int32.le_iff_toInt_le.1 hpos
      have := position.toInt_lt
      refine ⟨position.toInt.toNat, by omega, ?_, hname⟩
      rw [hposition, ← Int32.ofInt_eq_ofNat, Int.toNat_of_nonneg hpos, Int32.ofInt_toInt]
    next => cases hname
  · rintro ⟨p, hp, hposition, hname⟩
    have hval : (Int32.ofNat p).toInt = p := Int32.toInt_ofNat_of_lt hp
    refine ⟨_, hposition, ?_⟩
    rw [if_pos (Int32.le_iff_toInt_le.2 (by rw [hval]; simp)), hval]
    exact hname

namespace Request

/-- An answer is right exactly if it did not have to be cut to sixteen bits. -/
theorem Located.selects_iff (hc : c.Tidy) (h : r.Located c answer) :
    r.Selects c answer ↔ r.Reached c := by
  cases r with
  | int v => exact selects_iff_mem_take hc.ints h
  | float bits => exact selects_iff_mem_take hc.floats h
  | string v => exact selects_iff_mem_take hc.strings h
  | address v => exact selects_iff_mem_take hc.addresses h
  | name text =>
    obtain ⟨k, p, rfl, hk, hp⟩ := h
    have hsame {q : Nat} (hq : (c.names.toList.map Text.fold)[q]? = some (Text.fold text)) :
        q = p :=
      (List.getElem?_inj (List.getElem?_eq_some_iff.1 hq).1 hc.names).1 (hq.trans hp.symm)
    have hiff := getElem?_mod_iff hc.ints hk 65536 (by omega)
    simp only [Selects, Reached, Option.map_eq_some_iff, Chunk.nameAt?_eq_some]
    constructor
    · rintro ⟨name, ⟨q, hlt, hint, hname⟩, hfold⟩
      have hq : (c.names.toList.map Text.fold)[q]? = some (Text.fold text) := by
        simp [hname, hfold]
      obtain rfl := hsame hq
      exact ⟨q, hlt, hq, hiff.1 (by simpa using hint)⟩
    · rintro ⟨q, hlt, hq, hmem⟩
      obtain rfl := hsame hq
      obtain ⟨name, hname, hfold⟩ : ∃ name, c.names[q]? = some name ∧
          Text.fold name = Text.fold text := by simpa using hq
      exact ⟨name, ⟨q, hlt, by simpa using hiff.2 hmem, hname⟩, hfold⟩
  | _ => exact Iff.rfl

end Request

/-- Finishing leaves the pools as they are. -/
theorem Assembler.grows_finish (h : s.finish = .ok c) : s.pooled.Grows c := by
  unfold finish at h
  split at h
  next => cases h
  next =>
    cases h
    exact ⟨List.prefix_rfl, List.prefix_rfl, List.prefix_rfl, List.prefix_rfl, List.prefix_rfl,
      fun ⟨hi, hf, hs, ha, hn⟩ => ⟨hi, hf, hs, ha, hn⟩⟩

theorem Request.tidy_of_finish {name : String} {requests : List Request}
    (h : (performAll requests { name }).2.finish = .ok c) : c.Tidy := by
  refine (Assembler.grows_finish h).tidy ((grows_performAll requests _).tidy ?_)
  constructor <;> simp [ConstantPool.empty]

/-- No pool has more entries than its positions can tell apart. -/
structure Chunk.Small (c : Chunk) : Prop where
  ints : c.ints.size ≤ 65536
  floats : c.floats.size ≤ 65536
  strings : c.strings.size ≤ 65536
  addresses : c.addresses.size ≤ 65536
  names : c.names.size ≤ 2147483648

/-- Sixteen bits reach everything in small pools. -/
theorem Request.Located.reached (hc : c.Small) (h : r.Located c answer) : r.Reached c := by
  cases r with
  | int v => exact mem_take_of_size_le hc.ints h.choose_spec.2
  | float bits => exact mem_take_of_size_le hc.floats h.choose_spec.2
  | string v => exact mem_take_of_size_le hc.strings h.choose_spec.2
  | address v => exact mem_take_of_size_le hc.addresses h.choose_spec.2
  | name text =>
    obtain ⟨k, p, -, hk, hp⟩ := h
    have hlt := (List.getElem?_eq_some_iff.1 hp).1
    rw [List.length_map, Array.length_toList] at hlt
    exact ⟨p, Nat.lt_of_lt_of_le hlt hc.names, hp, mem_take_of_size_le hc.ints hk⟩
  | _ => trivial

/-- Whatever was asked of an assembler, the pools of the chunk have no two equal entries, and the
answer to a request for a constant selects that constant exactly if sixteen bits reach it, as they
do in small pools. -/
theorem answer_selects_iff {name : String} {requests : List Request} {c : Chunk}
    (h : (Request.performAll requests { name }).2.finish = .ok c) :
    c.Tidy ∧ ∀ (k : Nat) (r : Request), requests[k]? = some r →
      ∃ answer, (Request.performAll requests { name }).1[k]? = some answer ∧
        (r.Selects c answer ↔ r.Reached c) ∧ (c.Small → r.Selects c answer) := by
  refine ⟨Request.tidy_of_finish h, fun k r hr => ?_⟩
  have hlen := Request.length_performAll requests { name }
  have hk := (List.getElem?_eq_some_iff.1 hr).1
  obtain ⟨answer, hanswer⟩ : ∃ answer,
      (Request.performAll requests { name }).1[k]? = some answer := by
    rw [← hlen] at hk
    exact ⟨_, List.getElem?_eq_getElem hk⟩
  have hlocated : r.Located c answer := by
    refine (Request.performAll_located requests { name } ?_).mono (Assembler.grows_finish h)
    exact List.mem_of_getElem? (List.getElem?_zip_eq_some.2 ⟨hr, hanswer⟩)
  have hiff := hlocated.selects_iff (Request.tidy_of_finish h)
  exact ⟨answer, hanswer, hiff, fun hsmall => hiff.2 (hlocated.reached hsmall)⟩

/-- One name in two spellings, and an integer that is its position. -/
theorem answer_selects_iff_names :
    ∃ c, (Request.performAll [.int 5, .name "Fire", .name "fire", .int 0]
      { name := "t" }).2.finish = .ok c ∧ c.Tidy ∧ c.Small ∧
      (Request.name "fire").Selects c 1 ∧ (Request.int 0).Selects c 1 := by
  have hsizes : ((Request.performAll [.int 5, .name "Fire", .name "fire", .int 0]
      { name := "t" }).2.finish.toOption.map fun c => (c.ints.size, c.floats.size, c.strings.size,
        c.addresses.size, c.names.size)) = some (2, 0, 0, 0, 1) := by decide +kernel
  have hanswers : (Request.performAll [.int 5, .name "Fire", .name "fire", .int 0]
      { name := "t" }).1 = [0, 1, 1, 1] := by decide +kernel
  rcases hfinish : (Request.performAll [.int 5, .name "Fire", .name "fire", .int 0]
      { name := "t" }).2.finish with fault | c
  · rw [hfinish] at hsizes
    cases hsizes
  · simp only [hfinish, Except.toOption, Option.map_some, Option.some.injEq,
      Prod.mk.injEq] at hsizes
    have hsmall : c.Small := by constructor <;> omega
    obtain ⟨htidy, hall⟩ := answer_selects_iff hfinish
    obtain ⟨fire, hfire, -, hname⟩ := hall 2 _ rfl
    obtain ⟨first, hfirst, -, hint⟩ := hall 3 _ rfl
    rw [hanswers] at hfire hfirst
    cases hfire
    cases hfirst
    exact ⟨c, rfl, htidy, hsmall, hname hsmall, hint hsmall⟩

/-! ## More constants than sixteen bits can tell apart -/

namespace Request

def countingFrom (first count : Nat) : List Request :=
  (List.range' first count).map fun k => .int (Int32.ofNat k)

theorem perform_newInt {k : Nat} (hk : k < 4294967296)
    (hs : s.ints.entries = ((List.range k).map Int32.ofNat).toArray) :
    ∃ ints : ConstantPool Int32,
      (perform (.int (Int32.ofNat k))).run s = (k % 65536, { s with ints }) ∧
      ints.entries = ((List.range (k + 1)).map Int32.ofNat).toArray := by
  have hnew : Int32.ofNat k ∉ s.ints.entries.toList := by
    rw [hs]
    simp only [List.mem_map, List.mem_range, not_exists, not_and]
    intro j hj heq
    have hbits : (BitVec.ofNat 32 j).toNat = (BitVec.ofNat 32 k).toNat :=
      congrArg (fun v : Int32 => v.toBitVec.toNat) heq
    rw [BitVec.toNat_ofNat, BitVec.toNat_ofNat] at hbits
    omega
  obtain ⟨hindex, hentries⟩ := ConstantPool.intern_of_notMem hnew
  refine ⟨(s.ints.intern (Int32.ofNat k)).2, ?_, ?_⟩
  · rw [perform, Assembly.intConstant_run, hindex, hs]
    simp
  · rw [hentries, hs, List.range_succ]
    simp

theorem performAll_countingFrom {first count : Nat} (h : first + count ≤ 4294967296)
    (hs : s.ints.entries = ((List.range first).map Int32.ofNat).toArray) :
    ∃ ints : ConstantPool Int32, performAll (countingFrom first count) s =
      ((List.range' first count).map (· % 65536), { s with ints }) ∧
      ints.entries = ((List.range (first + count)).map Int32.ofNat).toArray := by
  induction count generalizing first s with
  | zero => exact ⟨s.ints, by simp [countingFrom, performAll], hs⟩
  | succ count ih =>
    obtain ⟨ints, hfirst, hints⟩ := perform_newInt (by omega) hs
    obtain ⟨all, hrest, hall⟩ := ih (s := { s with ints }) (by omega) hints
    refine ⟨all, ?_, by rw [hall, Nat.add_right_comm, Nat.add_assoc]⟩
    rw [countingFrom, List.range'_succ, List.map_cons, performAll_cons, hfirst, ← countingFrom,
      hrest, List.map_cons]

end Request

/-- The last of 65537 integers is answered with the position of the first one. -/
theorem wrapped_answer_misread :
    ∃ c, (Request.performAll (Request.countingFrom 0 65537) { name := "t" }).2.finish = .ok c ∧
      (Request.countingFrom 0 65537)[65536]? = some (.int 65536) ∧
      (Request.performAll (Request.countingFrom 0 65537) { name := "t" }).1[65536]? = some 0 ∧
      c.ints[0]? = some 0 ∧ ¬ (Request.int 65536).Selects c 0 := by
  obtain ⟨ints, hrun, hints⟩ : ∃ ints : ConstantPool Int32,
      Request.performAll (Request.countingFrom 0 65537) { name := "t" } =
        ((List.range' 0 65537).map (· % 65536), { name := "t", ints }) ∧
      ints.entries = ((List.range (0 + 65537)).map Int32.ofNat).toArray :=
    Request.performAll_countingFrom (by omega) rfl
  rw [hrun]
  refine ⟨_, rfl, ?_, ?_, ?_, ?_⟩
  · simp [Request.countingFrom]
  · simp
  · simp [hints]
  · simp [Request.Selects, hints]

end ActorScript
