import ActorScript.Proofs.ConstantPools
import ActorScript.Proofs.ControlFlow

/-! # Words as they were emitted

Faults on the way do not stop the assembler, and words that were cut to their fields stay in the
code. But a function is only finished without faults, and then every word reads back as what it was
emitted for: operation and operands, the number that a load delivers, and for a jump that was filled
in the target that it was given last.
-/

namespace ActorScript

variable {x : Assembly Unit} {v : Int32} {u : Unit} {target position : Nat} {i : Instr}
  {r : Request} {s : Assembler} {chunk : Chunk}

/-! ## What a word is emitted for -/

def Op.InByte (op : Op) : Prop :=
  ofCode op.code = op ∧ op.code < 256

theorem Op.inByte_ofCode (code : Nat) (h : code < 256) : (ofCode code).InByte := by
  have hall : ∀ n < 256, ofCode (ofCode n).code = ofCode n ∧ (ofCode n).code < 256 := by
    decide +kernel
  exact hall code h

/-- What one word of the code is there for. -/
inductive Emission where
  | abc (op : Op) (a b c : Operand)
  | abx (op : Op) (a bx : Operand)
  | asbx (op : Op) (a : Operand) (offset : Int)
  | load (reg : Nat) (value : Int32)
  | jump (target : Nat)
  /-- A jump that is to be filled in, with the target it was given last. -/
  | forward (target? : Option Nat)

namespace Request

def enter (ledger : List Emission) : Request → List Emission
  | .abc op a b c => ledger ++ [.abc op a b c]
  | .abx op a bx => ledger ++ [.abx op a bx]
  | .asbx op a offset => ledger ++ [.asbx op a offset]
  | .loadInt reg value => ledger ++ [.load reg value]
  | .jumpForward => ledger ++ [.forward none]
  | .jumpTo target => ledger ++ [.jump target]
  | .patch source => ledger.set source (.forward (some ledger.length))
  | .patchTo source target => ledger.set source (.forward (some target))
  | _ => ledger

def enterAll (ledger : List Emission) (requests : List Request) : List Emission :=
  requests.foldl enter ledger

/-- A request that can be made: operations are bytes, wide operands have sixteen bits, and only
jumps that are to be filled in are. -/
def Proper (ledger : List Emission) : Request → Prop
  | .abc op _ _ _ | .asbx op _ _ => op.InByte
  | .abx op _ bx => op.InByte ∧ bx.value < 65536
  | .patch source | .patchTo source _ => ∃ target?, ledger[source]? = some (.forward target?)
  | _ => True

def AllProper : List Emission → List Request → Prop
  | _, [] => True
  | ledger, r :: rest => r.Proper ledger ∧ AllProper (r.enter ledger) rest

/-- The position whose word a request may change. -/
def retargets : Request → Option Nat
  | .patch source | .patchTo source _ => some source
  | _ => none

end Request

/-! ## Instructions in the code -/

namespace Assembly

variable {s s' : Assembler}

theorem does_intConstant {n : Nat} :
    Does (intConstant v) s n s' ↔ n = (s.ints.intern v).1 ∧
      s' = { s with ints := (s.ints.intern v).2 } := by
  constructor
  · rintro ⟨run, -⟩
    cases run
    exact ⟨rfl, rfl⟩
  · rintro ⟨rfl, rfl⟩
    exact ⟨rfl, rfl⟩

theorem does_loadInt {reg : Nat} (h : Does (loadInt reg v) s u s') :
    reg ≤ 255 ∧ if fitsOffset v.toInt then
        s' = { s with code := s.code.push (.asbx .li (.reg Bank.int reg) v.toInt) }
      else
        s' = { s with
          ints := (s.ints.intern v).2
          code := s.code.push (.abx (.lk .int) (.reg Bank.int reg)
            (.pool Bank.int (s.ints.intern v).1)) } := by
  unfold loadInt at h
  split at h <;> rename_i hfits
  · obtain ⟨n, h⟩ := does_discard.1 h
    obtain ⟨⟨hreg, -⟩, -, rfl⟩ := does_asbx.1 h
    exact ⟨hreg, by rw [if_pos hfits]⟩
  · obtain ⟨index, s1, hindex, h⟩ := does_bind.1 h
    obtain ⟨rfl, rfl⟩ := does_intConstant.1 hindex
    obtain ⟨n, h⟩ := does_discard.1 h
    obtain ⟨hreg, -, rfl⟩ := does_abx.1 h
    exact ⟨hreg, by rw [if_neg hfits]⟩

theorem does_jumpTo (h : Does (jumpTo target) s u s') :
    fitsOffset (jumpOffset s.code.size target) ∧
      s' = { s with
        code := s.code.push (.asbx .jmp (.imm 0) (jumpOffset s.code.size target)) } := by
  unfold jumpTo position at h
  simp only [bind_assoc, does_bind, does_get, pure_bind, does_checkJump, does_discard] at h
  obtain ⟨_, _, ⟨rfl, rfl⟩, _, _, ⟨hfits, rfl⟩, n, h⟩ := h
  obtain ⟨-, -, rfl⟩ := does_asbx.1 h
  exact ⟨hfits, rfl⟩

theorem does_patch {source : Nat} (h : Does (patch source) s u s') :
    Does (patchTo source s.code.size) s u s' := by
  unfold patch position at h
  simp only [bind_assoc, does_bind, does_get, pure_bind] at h
  obtain ⟨_, _, ⟨rfl, rfl⟩, h⟩ := h
  exact h

end Assembly

open Assembly (jumpOffset Does)

/-- The instruction that a position holds for what is emitted there, given the integers that are
pooled. -/
def Emission.Stands (ints : List Int32) (position : Nat) (i : Instr) : Emission → Prop
  | .abc op a b c => i = .abc op a b c ∧ op.InByte ∧ a.value ≤ 255 ∧ b.value ≤ 255 ∧ c.value ≤ 255
  | .abx op a bx => i = .abx op a bx ∧ op.InByte ∧ a.value ≤ 255 ∧ bx.value < 65536
  | .asbx op a offset => i = .asbx op a offset ∧ op.InByte ∧ a.value ≤ 255 ∧ fitsOffset offset
  | .load reg v => reg ≤ 255 ∧
      if fitsOffset v.toInt then i = .asbx .li (.reg Bank.int reg) v.toInt
      else ∃ k, ints[k]? = some v ∧
        i = .abx (.lk .int) (.reg Bank.int reg) (.pool Bank.int (k % 65536))
  | .jump target => i = .asbx .jmp (.imm 0) (jumpOffset position target) ∧
      fitsOffset (jumpOffset position target)
  | .forward target? => i = .asbx .jmp (.imm 0) (target?.elim 0 (jumpOffset position)) ∧
      fitsOffset (target?.elim 0 (jumpOffset position))

variable {e : Emission}

theorem Emission.Stands.mono {ints ints' : List Int32} (h : e.Stands ints position i)
    (hints : ints <+: ints') : e.Stands ints' position i := by
  cases e with
  | load reg v =>
    refine ⟨h.1, ?_⟩
    have h := h.2
    split
    · rwa [if_pos ‹_›] at h
    · rw [if_neg ‹_›] at h
      obtain ⟨k, hk, hi⟩ := h
      exact ⟨k, getElem?_of_extends hints hk, hi⟩
  | _ => exact h

/-- Code without faults that holds what the ledger says. -/
structure Assembler.Keeps (s : Assembler) (ledger : List Emission) : Prop where
  faultless : s.faults = #[]
  length : s.code.size = ledger.length
  stands : ∀ (p : Nat) (e : Emission), ledger[p]? = some e →
    ∃ i, s.code[p]? = some i ∧ e.Stands s.ints.entries.toList p i

namespace Assembler.Keeps

variable {s s' : Assembler} {ledger : List Emission}

theorem same (h : s.Keeps ledger) (hcode : s'.code = s.code) (hfaults : s'.faults = #[])
    (hints : s.ints.entries.toList <+: s'.ints.entries.toList) : s'.Keeps ledger where
  faultless := hfaults
  length := by rw [hcode, h.length]
  stands p e he := by
    obtain ⟨i, hi, hstands⟩ := h.stands p e he
    exact ⟨i, by rw [hcode, hi], hstands.mono hints⟩

theorem push (h : s.Keeps ledger) (hcode : s'.code = s.code.push i) (hfaults : s'.faults = #[])
    (hints : s.ints.entries.toList <+: s'.ints.entries.toList)
    (hi : e.Stands s'.ints.entries.toList s.code.size i) : s'.Keeps (ledger ++ [e]) where
  faultless := hfaults
  length := by simp [hcode, h.length]
  stands p e' he' := by
    rw [hcode]
    rcases Nat.lt_or_ge p ledger.length with hp | hp
    · rw [List.getElem?_append_left hp] at he'
      obtain ⟨i', hi', hstands⟩ := h.stands p e' he'
      have hne : p ≠ s.code.size := by
        rw [h.length]
        omega
      exact ⟨i', by rw [Array.getElem?_push, if_neg hne, hi'], hstands.mono hints⟩
    · have hlen := (List.getElem?_eq_some_iff.1 he').1
      rw [List.length_append, List.length_singleton] at hlen
      obtain rfl : p = ledger.length := by omega
      rw [List.getElem?_concat_length] at he'
      cases he'
      refine ⟨i, by simp [← h.length], ?_⟩
      rwa [← h.length]

theorem retarget (h : s.Keeps ledger) {source : Nat} {target? : Option Nat}
    (hsource : ledger[source]? = some (.forward target?))
    (hdoes : Does (Assembly.patchTo source target) s u s') :
    s'.Keeps (ledger.set source (.forward (some target))) := by
  obtain ⟨hfits, rfl⟩ := Assembly.does_patchTo.1 hdoes
  refine ⟨h.faultless, by simp [h.length], fun p e he => ?_⟩
  show ∃ i, (s.code.modify source _)[p]? = some i ∧ e.Stands s.ints.entries.toList p i
  by_cases hp : p = source
  · subst hp
    obtain ⟨i, hi, rfl, -⟩ := h.stands p _ hsource
    have hlt := (List.getElem?_eq_some_iff.1 hsource).1
    rw [List.getElem?_set_self hlt] at he
    cases he
    exact ⟨_, by rw [Array.getElem?_modify, if_pos rfl, hi]; rfl, rfl, hfits⟩
  · rw [List.getElem?_set_ne (Ne.symm hp)] at he
    obtain ⟨i, hi, hstands⟩ := h.stands p e he
    exact ⟨i, by rw [Array.getElem?_modify, if_neg (Ne.symm hp), hi], hstands⟩

end Assembler.Keeps

namespace Request

def emits : Request → Bool
  | .abc .. | .abx .. | .asbx .. | .loadInt .. | .jumpForward | .jumpTo _ | .patch _
  | .patchTo .. => true
  | _ => false

theorem code_of_not_emits (h : r.emits = false) (s : Assembler) :
    (r.perform.run s).2.code = s.code := by
  have hsame : Assembly.Takes Assembler.SameCode r.perform := by
    cases r <;> first | (unfold perform; infer_instance) | cases h
  exact hsame.runs s

instance safe_perform (r : Request) : Assembly.Safe r.perform := by
  cases r <;> unfold perform <;> infer_instance

theorem enter_of_not_emits (h : r.emits = false) (ledger : List Emission) :
    r.enter ledger = ledger := by
  cases r <;> first | rfl | cases h

theorem silent_does {s' : Assembler} {n : Nat} (h : Does (silent x) s n s') : Does x s () s' := by
  obtain ⟨run, faultless⟩ := h
  cases run
  exact ⟨rfl, faultless⟩

variable {ledger : List Emission}

theorem perform_keeps (hs : s.Keeps ledger) (hr : r.Proper ledger)
    (hfaults : (r.perform.run s).2.faults = #[]) : (r.perform.run s).2.Keeps (r.enter ledger) := by
  have hints := (r.grows s).ints
  cases hemits : r.emits with
  | false =>
    rw [enter_of_not_emits hemits]
    exact hs.same (code_of_not_emits hemits s) hfaults hints
  | true =>
    have hdoes : Does r.perform s (r.perform.run s).1 (r.perform.run s).2 :=
      ⟨rfl, hfaults.trans hs.faultless.symm⟩
    generalize (r.perform.run s).2 = s', (r.perform.run s).1 = n at hdoes hfaults hints
    cases r with
    | abc op a b c =>
      obtain ⟨hbytes, -, rfl⟩ := Assembly.does_abc.1 hdoes
      exact hs.push rfl hfaults hints ⟨rfl, hr, hbytes⟩
    | abx op a bx =>
      obtain ⟨hbyte, -, rfl⟩ := Assembly.does_abx.1 hdoes
      exact hs.push rfl hfaults hints ⟨rfl, hr.1, hbyte, hr.2⟩
    | asbx op a offset =>
      obtain ⟨hfits, -, rfl⟩ := Assembly.does_asbx.1 hdoes
      exact hs.push rfl hfaults hints ⟨rfl, hr, hfits⟩
    | loadInt reg v =>
      obtain ⟨hreg, hrun⟩ := Assembly.does_loadInt (silent_does hdoes)
      split at hrun <;> rename_i hfits <;> subst hrun
      · exact hs.push rfl hfaults hints ⟨hreg, by rw [if_pos hfits]⟩
      · obtain ⟨k, hindex, hk⟩ := s.ints.intern_found v
        refine hs.push rfl hfaults hints ⟨hreg, ?_⟩
        rw [if_neg hfits]
        exact ⟨k, by simpa using hk, congrArg (Instr.abx _ _ ∘ Operand.pool _) hindex⟩
    | jumpForward =>
      obtain ⟨hfits, -, rfl⟩ := Assembly.does_asbx.1 hdoes
      exact hs.push rfl hfaults hints ⟨rfl, hfits.2⟩
    | jumpTo target =>
      obtain ⟨hfits, rfl⟩ := Assembly.does_jumpTo (silent_does hdoes)
      exact hs.push rfl hfaults hints ⟨rfl, hfits⟩
    | patch source =>
      obtain ⟨target?, hsource⟩ := hr
      have hpatch := Assembly.does_patch (silent_does hdoes)
      rw [hs.length] at hpatch
      exact hs.retarget hsource hpatch
    | patchTo source target =>
      obtain ⟨target?, hsource⟩ := hr
      exact hs.retarget hsource (silent_does hdoes)
    | _ => cases hemits

theorem faults_performAll (requests : List Request) (s : Assembler) :
    s.faults.toList <+: (performAll requests s).2.faults.toList := by
  induction requests generalizing s with
  | nil => exact List.prefix_rfl
  | cons r rest ih => exact ((safe_perform r).runs s).trans (ih _)

theorem performAll_keeps {requests : List Request} (hs : s.Keeps ledger)
    (hproper : AllProper ledger requests) (hfaults : (performAll requests s).2.faults = #[]) :
    (performAll requests s).2.Keeps (enterAll ledger requests) := by
  induction requests generalizing s ledger with
  | nil => exact hs
  | cons r rest ih =>
    rw [performAll_cons] at hfaults ⊢
    have hfirst : (r.perform.run s).2.faults = #[] := by
      have hprefix := faults_performAll rest (r.perform.run s).2
      rw [hfaults] at hprefix
      simpa using hprefix
    exact ih (perform_keeps hs hproper.1 hfirst) hproper.2 hfaults

end Request

/-! ## Words -/

namespace Emission

/-- A word reads back as what it was emitted for. A load delivers its value itself or from the
pool, and a jump leads to its target, counted from the word behind it. -/
def Decodes (chunk : Chunk) (position : Nat) (w : UInt32) : Emission → Prop
  | .abc op a b c => Word.op w = op ∧ Word.a w = a.value ∧ Word.b w = b.value ∧ Word.c w = c.value
  | .abx op a bx => Word.op w = op ∧ Word.a w = a.value ∧ Word.bx w = bx.value
  | .asbx op a offset => Word.op w = op ∧ Word.a w = a.value ∧ Word.offset w = offset
  | .load reg v => Word.a w = reg ∧ (Word.op w = .li ∧ Word.offset w = v.toInt ∨
      Word.op w = .lk .int ∧ chunk.ints[Word.bx w]? = some v)
  | .jump target => Word.op w = .jmp ∧ Word.a w = 0 ∧
      (position : Int) + 1 + Word.offset w = target
  | .forward target? => Word.op w = .jmp ∧ Word.a w = 0 ∧
      (position : Int) + 1 + Word.offset w = target?.getD (position + 1)

/-- What is loaded from the pool is among the entries that sixteen bits reach. -/
def Reached (chunk : Chunk) : Emission → Prop
  | .load _ v => fitsOffset v.toInt ∨ v ∈ chunk.ints.toList.take 65536
  | _ => True

end Emission

namespace Instr

variable {op : Op} {a : Operand}

theorem op_encode_of_inByte (h : i.op.InByte) : Word.op i.encode = i.op := by
  have hlow := i.low_lt
  have hlt := h.2
  have hcode : Word.code i.encode = i.op.code := by
    rw [Word.code, toNat_encode]
    omega
  rw [Word.op, hcode, h.1]

theorem a_encode_of_le (h : i.first.value ≤ 255) : Word.a i.encode = i.first.value := by
  rw [a_encode]
  omega

theorem bytes_encode {b c : Operand} (hb : b.value ≤ 255) (hc : c.value ≤ 255) :
    Word.b (abc op a b c).encode = b.value ∧ Word.c (abc op a b c).encode = c.value := by
  rw [Word.b, Word.c, toNat_encode, low]
  omega

theorem jump_encode (h : fitsOffset (jumpOffset position target)) :
    (position : Int) + 1 +
      Word.offset (asbx .jmp (.imm 0) (jumpOffset position target)).encode = target := by
  rw [offset_encode h, jumpOffset]
  omega

theorem and_high {n : Nat} (h : n < 2 ^ 32) : n &&& 0xFFFF0000 = n >>> 16 <<< 16 := by
  apply Nat.eq_of_testBit_eq
  intro k
  rw [show 0xFFFF0000 = (2 ^ 16 - 1) <<< 16 from rfl, Nat.testBit_and, Nat.testBit_shiftLeft,
    Nat.testBit_two_pow_sub_one, Nat.testBit_shiftLeft, Nat.testBit_shiftRight]
  by_cases hlow : 16 ≤ k
  · by_cases hhigh : k < 32
    · simp [hlow, show k - 16 < 16 by omega]
    · have hzero : n.testBit k = false :=
        Nat.testBit_lt_two_pow (Nat.lt_of_lt_of_le h (Nat.pow_le_pow_right (by omega) (by omega)))
      simp [hlow, hzero]
  · simp [hlow]

/-- A word gets another offset by clearing its low field and putting the offset there. -/
theorem encode_withOffset (i : Instr) (offset : Int) :
    (i.withOffset offset).encode =
      (i.encode &&& 0xFFFF0000) ||| UInt32.ofNat (offset % 65536).toNat := by
  have hoffset : (offset % 65536).toNat < 2 ^ 16 := by omega
  have hfield : (UInt32.ofNat (offset % 65536).toNat).toNat = (offset % 65536).toNat :=
    UInt32.toNat_ofNat_of_lt' (Nat.lt_trans hoffset (by decide))
  have hlow := i.low_lt
  apply UInt32.toNat_inj.1
  rw [UInt32.toNat_or, UInt32.toNat_and, hfield,
    show (0xFFFF0000 : UInt32).toNat = 0xFFFF0000 from rfl, and_high i.encode.toNat_lt,
    ← Nat.shiftLeft_add_eq_or_of_lt hoffset, toNat_encode, toNat_encode, Nat.shiftLeft_eq,
    Nat.shiftRight_eq_div_pow]
  change i.op.code % 256 * 0x1000000 + i.first.value % 256 * 0x10000 + (offset % 65536).toNat = _
  omega

end Instr

/-- An instruction that stands for what is emitted reads back as that, if what it loads from the
pool is reached. -/
theorem Emission.Stands.decodes_iff (hchunk : chunk.ints.toList.Nodup)
    (h : e.Stands chunk.ints.toList position i) :
    e.Decodes chunk position i.encode ↔ e.Reached chunk := by
  have hjmp : Op.jmp.InByte := Op.inByte_ofCode 1 (by decide)
  cases e with
  | abc op a b c =>
    obtain ⟨rfl, hop, ha, hb, hc⟩ := h
    exact iff_of_true ⟨Instr.op_encode_of_inByte hop, Instr.a_encode_of_le ha,
      Instr.bytes_encode hb hc⟩ trivial
  | abx op a bx =>
    obtain ⟨rfl, hop, ha, hbx⟩ := h
    exact iff_of_true ⟨Instr.op_encode_of_inByte hop, Instr.a_encode_of_le ha,
      (Instr.bx_encode _).trans (Nat.mod_eq_of_lt hbx)⟩ trivial
  | asbx op a offset =>
    obtain ⟨rfl, hop, ha, hfits⟩ := h
    exact iff_of_true ⟨Instr.op_encode_of_inByte hop, Instr.a_encode_of_le ha,
      Instr.offset_encode hfits⟩ trivial
  | jump target =>
    obtain ⟨rfl, hfits⟩ := h
    exact iff_of_true ⟨Instr.op_encode_of_inByte hjmp, Instr.a_encode_of_le (Nat.zero_le _),
      Instr.jump_encode hfits⟩ trivial
  | forward target? =>
    obtain ⟨rfl, hfits⟩ := h
    refine iff_of_true ⟨Instr.op_encode_of_inByte hjmp, Instr.a_encode_of_le (Nat.zero_le _), ?_⟩
      trivial
    cases target? with
    | none =>
      rw [Option.elim_none, Instr.offset_encode rfl]
      simp
    | some target => exact Instr.jump_encode hfits
  | load reg v =>
    obtain ⟨hreg, h⟩ := h
    split at h <;> rename_i hfits
    · subst h
      refine iff_of_true ⟨Instr.a_encode_of_le hreg, .inl ⟨?_, Instr.offset_encode hfits⟩⟩
        (.inl hfits)
      exact Instr.op_encode_of_inByte (Op.inByte_ofCode 6 (by decide))
    · obtain ⟨k, hk, rfl⟩ := h
      have hop : Word.op (Instr.abx (.lk .int) (.reg Bank.int reg)
          (.pool Bank.int (k % 65536))).encode = .lk .int :=
        Instr.op_encode_of_inByte (Op.inByte_ofCode 7 (by decide))
      have hbx : Word.bx (Instr.abx (.lk .int) (.reg Bank.int reg)
          (.pool Bank.int (k % 65536))).encode = k % 65536 :=
        (Instr.bx_encode _).trans (Nat.mod_eq_of_lt (Nat.mod_lt _ (by decide)))
      have ha : Word.a (Instr.abx (.lk .int) (.reg Bank.int reg)
          (.pool Bank.int (k % 65536))).encode = reg :=
        Instr.a_encode_of_le hreg
      simp only [Emission.Decodes, Emission.Reached, hop, hbx, ha, hfits,
        ← getElem?_mod_iff hchunk hk 65536 (by decide)]
      simp

theorem Emission.Stands.reached (h : e.Stands chunk.ints.toList position i)
    (hsmall : chunk.ints.size ≤ 65536) : e.Reached chunk := by
  cases e with
  | load reg v =>
    by_cases hfits : fitsOffset v.toInt
    · exact .inl hfits
    · have h := h.2
      rw [if_neg hfits] at h
      obtain ⟨k, hk, -⟩ := h
      exact .inr (mem_take_of_size_le hsmall hk)
  | _ => trivial

/-! ## Words that are not filled in -/

def Assembler.Appends (s s' : Assembler) : Prop :=
  s.code.toList <+: s'.code.toList

instance : Assembler.Tracks Assembler.Appends :=
  ⟨fun _ => List.prefix_rfl, List.IsPrefix.trans, fun h => by simp [Assembler.Appends, h.code]⟩

instance Assembly.appends_append (i : Instr) : Takes Assembler.Appends (append i) :=
  ⟨fun s => by
    change s.code.toList <+: (s.code.push i).toList
    simp⟩

namespace Request

theorem appends (h : r.retargets = none) : Assembly.Takes Assembler.Appends r.perform := by
  cases r <;> first | (unfold perform; infer_instance) | cases h

theorem code_patchTo (source target : Nat) (s : Assembler) :
    ((Assembly.patchTo source target).run s).2.code =
      s.code.modify source (·.withOffset (jumpOffset source target)) := by
  unfold Assembly.patchTo Assembly.checkJump
  cases fitsOffset (jumpOffset source target) <;> rfl

/-- Filling in a jump changes the low field of its word, and no other word. -/
theorem words_patchTo (source target : Nat) (s : Assembler) :
    ((Assembly.patchTo source target).run s).2.code.map Instr.encode =
      (s.code.map Instr.encode).modify source fun word =>
        (word &&& 0xFFFF0000) ||| UInt32.ofNat (jumpOffset source target % 65536).toNat := by
  rw [code_patchTo]
  apply Array.ext_getElem?
  intro p
  simp only [Array.getElem?_map, Array.getElem?_modify]
  split <;> simp [Instr.encode_withOffset, Function.comp_def]

theorem word_stays {p : Nat} (hi : s.code[p]? = some i) (hr : r.retargets ≠ some p) :
    (r.perform.run s).2.code[p]? = some i := by
  have hpatch (source target : Nat) (h : source ≠ p) :
      ((Assembly.patchTo source target).run s).2.code[p]? = some i := by
    rw [code_patchTo, Array.getElem?_modify, if_neg h, hi]
  cases hretargets : r.retargets with
  | none =>
    have hadds : _ <+: _ := (appends hretargets).runs s
    rw [← Array.getElem?_toList] at hi ⊢
    exact getElem?_of_extends hadds hi
  | some source =>
    have hne : source ≠ p := fun h => hr (by rw [hretargets, h])
    cases r with
    | patch source' =>
      cases hretargets
      exact hpatch source s.code.size hne
    | patchTo source' target =>
      cases hretargets
      exact hpatch source target hne
    | _ => cases hretargets

end Request

/-- What a finished function is made of. -/
theorem Assembler.finish_ok (h : s.finish = .ok chunk) :
    s.faults = #[] ∧ chunk.code = s.code.map Instr.encode ∧ chunk.ints = s.ints.entries := by
  have hfaults := Assembler.faultless_of_finish h
  unfold finish at h
  rw [hfaults] at h
  cases h
  exact ⟨by simpa using hfaults, rfl, rfl⟩

/-- Whatever was asked of an assembler, the finished code has one word for each that was emitted.
The word reads back as what it was emitted for, exactly if what it loads from the pool is among the
entries that sixteen bits reach, as it is in a small pool. Words that are not filled in stay as they
are. -/
theorem words_decode_as_emitted {name : String} {requests : List Request} {chunk : Chunk}
    (hproper : Request.AllProper [] requests)
    (h : (Request.performAll requests { name }).2.finish = .ok chunk) :
    chunk.code.size = (Request.enterAll [] requests).length ∧
      (∀ (p : Nat) (e : Emission), (Request.enterAll [] requests)[p]? = some e →
        ∃ w, chunk.code[p]? = some w ∧ (e.Decodes chunk p w ↔ e.Reached chunk) ∧
          (chunk.ints.size ≤ 65536 → e.Decodes chunk p w)) ∧
      ∀ (s : Assembler) (r : Request) (p : Nat) (i : Instr), s.code[p]? = some i →
        r.retargets ≠ some p → (r.perform.run s).2.code[p]? = some i := by
  obtain ⟨hfaults, hcode, hints⟩ := Assembler.finish_ok h
  have hstart : ({ name } : Assembler).Keeps [] := ⟨rfl, rfl, by simp⟩
  have hkeeps := Request.performAll_keeps hstart hproper hfaults
  refine ⟨by rw [hcode, Array.size_map, hkeeps.length], fun p e he => ?_,
    fun s r p i => Request.word_stays⟩
  obtain ⟨i, hi, hstands⟩ := hkeeps.stands p e he
  rw [← hints] at hstands
  have hiff := hstands.decodes_iff (Request.tidy_of_finish h).ints
  refine ⟨i.encode, by rw [hcode, Array.getElem?_map, hi]; rfl, hiff, fun hsmall => hiff.2 ?_⟩
  exact hstands.reached hsmall

/-- A jump over a load, filled in twice, and a load of a large number. -/
theorem words_decode_as_emitted_jump :
    ∃ chunk, Request.AllProper [] [.jumpForward, .loadInt 3 70000, .patchTo 0 1,
        .abc (.ofCode 65) (.imm 3) (.imm 3) (.imm 255), .patch 0] ∧
      (Request.performAll [.jumpForward, .loadInt 3 70000, .patchTo 0 1,
        .abc (.ofCode 65) (.imm 3) (.imm 3) (.imm 255), .patch 0]
        { name := "t" }).2.finish = .ok chunk ∧
      ∃ w, chunk.code[0]? = some w ∧ (Emission.forward (some 3)).Decodes chunk 0 w := by
  have hproper : Request.AllProper [] [.jumpForward, .loadInt 3 70000, .patchTo 0 1,
      .abc (.ofCode 65) (.imm 3) (.imm 3) (.imm 255), .patch 0] :=
    ⟨trivial, trivial, ⟨none, rfl⟩, Op.inByte_ofCode 65 (by decide), ⟨some 1, rfl⟩, trivial⟩
  have hints : ((Request.performAll [.jumpForward, .loadInt 3 70000, .patchTo 0 1,
      .abc (.ofCode 65) (.imm 3) (.imm 3) (.imm 255), .patch 0]
      { name := "t" }).2.finish.toOption.map (·.ints.size)) = some 1 := by decide +kernel
  rcases hfinish : (Request.performAll [.jumpForward, .loadInt 3 70000, .patchTo 0 1,
      .abc (.ofCode 65) (.imm 3) (.imm 3) (.imm 255), .patch 0]
      { name := "t" }).2.finish with fault | chunk
  · rw [hfinish] at hints
    cases hints
  · simp only [hfinish, Except.toOption, Option.map_some, Option.some.injEq] at hints
    obtain ⟨-, hwords, -⟩ := words_decode_as_emitted hproper hfinish
    obtain ⟨w, hw, -, hdecodes⟩ := hwords 0 _ rfl
    exact ⟨chunk, hproper, rfl, w, hw, hdecodes (by omega)⟩

/-! ## More loads than sixteen bits can tell apart -/

namespace Request

def loadingFrom (first count : Nat) : List Request :=
  (List.range' first count).map fun k => .loadInt 0 (Int32.ofNat (32768 + k))

def numbersOf (count : Nat) : Array Int32 :=
  ((List.range count).map fun k => Int32.ofNat (32768 + k)).toArray

def loaded (s : Assembler) (ints : ConstantPool Int32) (count : Nat) : Assembler :=
  { s with
    ints
    code := ((List.range count).map fun k =>
      Instr.abx (.lk .int) (.reg Bank.int 0) (.pool Bank.int (k % 65536))).toArray }

theorem run_loadInt_large (h : fitsOffset v.toInt = false) (s : Assembler) :
    ((perform (.loadInt 0 v)).run s).2 =
      { s with
        ints := (s.ints.intern v).2
        code := s.code.push (.abx (.lk .int) (.reg Bank.int 0)
          (.pool Bank.int (s.ints.intern v).1)) } := by
  change ((Assembly.loadInt 0 v).run s).2 = _
  unfold Assembly.loadInt
  rw [if_neg (by simp [h])]
  rfl

theorem perform_newLoad {ints : ConstantPool Int32} {k : Nat} (hk : 32768 + k < 2147483648)
    (hints : ints.entries = numbersOf k) : ∃ ints',
      ((perform (.loadInt 0 (Int32.ofNat (32768 + k)))).run (loaded s ints k)).2 =
        loaded s ints' (k + 1) ∧ ints'.entries = numbersOf (k + 1) := by
  have hvalue {j : Nat} (hj : j ≤ k) : (Int32.ofNat (32768 + j)).toInt = (32768 + j : Nat) :=
    Int32.toInt_ofNat_of_lt (by omega)
  have hlarge : fitsOffset (Int32.ofNat (32768 + k)).toInt = false := by
    simp only [fitsOffset, hvalue le_rfl, Bool.and_eq_false_iff, decide_eq_false_iff_not]
    omega
  have hnew : Int32.ofNat (32768 + k) ∉ ints.entries.toList := by
    simp only [hints, numbersOf, List.mem_map, List.mem_range, not_exists, not_and]
    intro j hj heq
    have hnumbers := congrArg Int32.toInt heq
    rw [hvalue hj.le, hvalue le_rfl] at hnumbers
    omega
  obtain ⟨hindex, hentries⟩ := ConstantPool.intern_of_notMem hnew
  refine ⟨(ints.intern (Int32.ofNat (32768 + k))).2, ?_, ?_⟩
  · have hsize : ints.entries.size = k := by simp [hints, numbersOf]
    rw [run_loadInt_large hlarge]
    change { s with ints := _, code := Array.push _ (.abx _ _ (.pool _ (ints.intern _).1)) } = _
    rw [hindex, hsize]
    simp [loaded, List.range_succ]
  · rw [hentries, hints]
    simp [numbersOf, List.range_succ]

theorem performAll_loadingFrom (first count : Nat) (h : 32768 + first + count ≤ 2147483648)
    (s : Assembler) {ints : ConstantPool Int32} (hints : ints.entries = numbersOf first) :
    ∃ ints', (performAll (loadingFrom first count) (loaded s ints first)).2 =
      loaded s ints' (first + count) ∧ ints'.entries = numbersOf (first + count) := by
  induction count generalizing first ints with
  | zero => exact ⟨ints, rfl, hints⟩
  | succ count ih =>
    obtain ⟨ints', hload, hints'⟩ := perform_newLoad (s := s) (by omega) hints
    rw [loadingFrom, List.range'_succ, List.map_cons, performAll_cons, hload, ← loadingFrom,
      ← Nat.add_assoc, Nat.add_right_comm]
    exact ih (first + 1) (by omega) hints'

theorem allProper_loadingFrom (first count : Nat) (ledger : List Emission) :
    AllProper ledger (loadingFrom first count) := by
  induction count generalizing first ledger with
  | zero => trivial
  | succ count ih =>
    rw [loadingFrom, List.range'_succ, List.map_cons]
    exact ⟨trivial, ih _ _⟩

end Request

/-- The last of 65537 loads of different numbers delivers the first of them. -/
theorem wrapped_load_misread :
    ∃ chunk w, Request.AllProper [] (Request.loadingFrom 0 65537) ∧
      (Request.performAll (Request.loadingFrom 0 65537) { name := "t" }).2.finish = .ok chunk ∧
      (Request.loadingFrom 0 65537)[65536]? = some (.loadInt 0 98304) ∧
      chunk.code[65536]? = some w ∧ Word.op w = .lk .int ∧
      chunk.ints[Word.bx w]? = some 32768 ∧ ¬ (Emission.load 0 98304).Decodes chunk 65536 w := by
  obtain ⟨ints, hrun, hints⟩ : ∃ ints : ConstantPool Int32,
      (Request.performAll (Request.loadingFrom 0 65537) { name := "t" }).2 =
        Request.loaded { name := "t" } ints (0 + 65537) ∧
      ints.entries = Request.numbersOf (0 + 65537) :=
    Request.performAll_loadingFrom 0 65537 (by decide) { name := "t" } rfl
  rw [Nat.zero_add] at hrun hints
  have hop : Word.op (Instr.abx (.lk .int) (.reg Bank.int 0) (.pool Bank.int 0)).encode =
      .lk .int := Instr.op_encode_of_inByte (Op.inByte_ofCode 7 (by decide))
  have hbx : Word.bx (Instr.abx (.lk .int) (.reg Bank.int 0) (.pool Bank.int 0)).encode = 0 :=
    Instr.bx_encode _
  rw [hrun]
  refine ⟨_, (Instr.abx (.lk .int) (.reg Bank.int 0) (.pool Bank.int 0)).encode,
    Request.allProper_loadingFrom 0 65537 [], rfl, ?_, ?_, hop, ?_, ?_⟩
  · simp [Request.loadingFrom]
  · simp [Request.loaded]
  · simp [hbx, Request.loaded, hints, Request.numbersOf]
  · rintro ⟨-, ⟨hli, -⟩ | ⟨-, hvalue⟩⟩
    · rw [hop] at hli
      cases hli
    · rw [hbx] at hvalue
      have hfirst : (some (32768 : Int32)) = some 98304 := by
        rw [← hvalue]
        simp [Request.loaded, hints, Request.numbersOf]
      exact absurd hfirst (by decide)

end ActorScript
