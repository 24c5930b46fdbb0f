import Mathlib
import SecureTape.Proofs.Actions
import SecureTape.Proofs.Codec

/-!
# Bytecode has one reading and one spelling

Main statement: `decode_unambiguous`.

1. `Bytecode.Fields`, `Bytecode.Spells`: which bytes stand for which operands and instructions,
   whatever is around them. `spells_of_decodeOne`: decoding takes such bytes off the front, and
   nothing else.
2. `SpellsAll.decodeFrom_append`: hence the tape `a ++ b` is decoded as `a` and then `b`, although
   the guard on operand counts looks at all bytes that are left.
3. `SpellsAll.eq_flatMap_bytes`: where text fields are padded, only the bytes that encoding writes
   stand for an instruction.
-/

namespace SecureTape

open List Wire Reader Text

/-! ## Numbers -/

theorem ofBigEndian_lt (bytes : Bytes) : ofBigEndian bytes < 256 ^ bytes.length := by
  induction bytes using List.reverseRecOn with
  | nil => simp [ofBigEndian]
  | append_singleton bytes b ih =>
    have := b.toNat_lt
    rw [ofBigEndian_append_singleton, length_append, length_singleton, Nat.pow_succ]
    omega

theorem bigEndian_ofBigEndian (bytes : Bytes) : bigEndian bytes.length (ofBigEndian bytes) = bytes := by
  induction bytes using List.reverseRecOn with
  | nil => rfl
  | append_singleton bytes b ih =>
    have hb := b.toNat_lt
    rw [ofBigEndian_append_singleton, length_append, length_singleton, bigEndian]
    have hdiv : (ofBigEndian bytes * 256 + b.toNat) / 256 = ofBigEndian bytes := by omega
    have hlast : UInt8.ofNat (ofBigEndian bytes * 256 + b.toNat) = b := by
      apply UInt8.toNat_inj.1
      rw [UInt8.toNat_ofNat']
      omega
    rw [hdiv, ih, hlast]

/-! ## Operands -/

theorem Reader.take_map_eq_some_iff {α : Type} {n : Nat} {g : Bytes → α} {bytes rest : Bytes} {a : α} :
    (take n).map g bytes = (some a, rest) ↔
      ∃ front, bytes = front ++ rest ∧ front.length = n ∧ g front = a := by
  constructor
  · intro h
    obtain ⟨ha, hrest⟩ := Prod.mk.inj h
    obtain ⟨front, hfront, rfl⟩ := Option.map_eq_some_iff.1 ha
    obtain ⟨rfl, hlen⟩ := take_eq_some_iff.1 (Prod.ext hfront hrest)
    exact ⟨front, rfl, hlen, rfl⟩
  · rintro ⟨front, rfl, rfl, rfl⟩
    exact (reads_take front).map g rest

theorem Reader.map_comp {α β γ : Type} (r : Reader α) (f : α → β) (g : β → γ) :
    (r.map f).map g = r.map (g ∘ f) := by
  funext bytes
  simp [Reader.map]

/-- A padded text: ASCII without zeros, then only zeros. -/
def Wire.IsPadded (bytes : Bytes) : Prop :=
  (∀ b ∈ bytes.takeWhile (· ≠ 0), b.toNat < 0x80) ∧ ∀ b ∈ bytes.dropWhile (· ≠ 0), b = 0

/-- The operand as an instruction has it that is about to be written. -/
def DecodedOperand.toOperand : DecodedOperand → Operand
  | .reg _ index | .anyReg index => .reg ⟨0, index⟩
  | .callee index => .callee ⟨0, index⟩
  | .number value => .number value
  | .text value => .text value

namespace DecodedInstruction

def toInstruction (i : DecodedInstruction) : Instruction :=
  ⟨i.opcode, i.domain, i.size, i.operands.map (·.toOperand)⟩

def bytes (i : DecodedInstruction) : Bytes := i.toInstruction.encode Reg.id

def shift (n : Nat) (i : DecodedInstruction) : DecodedInstruction := { i with offset := n + i.offset }

/-- The bytes in front of the operands: the code word, and the operand count of a grouped layout. -/
def headLength (i : DecodedInstruction) : Nat := 8 + if i.opcode.layout.isGrouped then 4 else 0

end DecodedInstruction

namespace Text

theorem utf8_ofUtf8 {bytes : Bytes} (h : ∀ b ∈ bytes, b.toNat < 0x80) :
    utf8 (ofUtf8 bytes) = bytes := by
  rw [utf8, ofUtf8, String.toList_ofList]
  induction bytes with
  | nil => simp [charsOfUtf8]
  | cons b bytes ih =>
    have hb := h b (by simp)
    have hchar : (Char.ofNat b.toNat).toNat = b.toNat := by
      rw [Char.toNat_ofNat, if_pos (.inl (by omega))]
    rw [charsOfUtf8]
    simp only [charAt, if_pos hb, drop_zero, flatMap_cons]
    rw [ih fun c hc => h c (by simp [hc]), utf8EncodeChar_plain (by omega), hchar]
    simp

end Text

theorem Wire.textField_of_isPadded {bytes : Bytes} (hlen : bytes.length = textFieldWidth)
    (h : IsPadded bytes) : textField (ofUtf8 (bytes.takeWhile (· ≠ 0))) = bytes := by
  have hsplit := takeWhile_append_dropWhile (p := fun b : UInt8 => decide (b ≠ 0)) (l := bytes)
  have hcount := congrArg List.length hsplit
  rw [length_append] at hcount
  have hzeros := eq_replicate_of_mem h.2
  rw [textField, utf8_ofUtf8 h.1, take_of_length_le (by omega)]
  conv_rhs => rw [← hsplit, hzeros]
  congr 2
  omega

namespace Bytecode

variable {f : OperandFormat} {fs : List OperandFormat} {os : List DecodedOperand} {offset : Nat}
  {bytes front rest : Bytes} {inst : DecodedInstruction} {is : List DecodedInstruction}

/-- Readers of operands take a number of bytes. Encoding writes as many, and the same ones if texts
are padded. -/
theorem operandReader_eq (hf : f ≠ .longText) : ∃ n g, operandReader f = (Reader.take n).map g ∧
    f.width? = some n ∧ ∀ front : Bytes, front.length = n →
      (Instruction.operandBytes Reg.id f (g front).toOperand).length = n ∧
      ((f = .text → IsPadded front) →
        Instruction.operandBytes Reg.id f (g front).toOperand = front) := by
  have hsigned {n : Nat} {front : Bytes} (hn : 0 < n) (hlen : front.length = n) :
      bigEndian n (toUnsigned (8 * n) (toSigned (8 * n) (ofBigEndian front))) = front := by
    subst hlen
    rw [toUnsigned_toSigned (by omega), bigEndian_ofBigEndian]
    rw [Nat.pow_mul]
    exact ofBigEndian_lt front
  cases f with
  | longText => exact absurd rfl hf
  | text =>
    exact ⟨_, _, map_comp .., rfl, fun front hlen =>
      ⟨length_textField _, fun hp => textField_of_isPadded hlen (hp rfl)⟩⟩
  | long =>
    exact ⟨_, _, (congrArg (Reader.map _) (map_comp ..)).trans (map_comp ..), rfl, fun front hlen =>
      ⟨length_signed64 _, fun _ => hsigned (by decide) hlen⟩⟩
  | imm | int | player =>
    exact ⟨_, _, (congrArg (Reader.map _) (map_comp ..)).trans (map_comp ..), rfl, fun front hlen =>
      ⟨length_signed32 _, fun _ => hsigned (by decide) hlen⟩⟩
  | _ =>
    exact ⟨_, _, map_comp .., rfl, fun front hlen =>
      ⟨length_word32 _, fun _ => (hlen ▸ bigEndian_ofBigEndian front :)⟩⟩

/-- Texts among operands of these formats are padded. -/
def Padded : List OperandFormat → Bytes → Prop
  | [], _ => True
  | f :: fs, bytes => (f = .text → IsPadded (bytes.take textFieldWidth)) ∧
    Padded fs (bytes.drop (f.width?.getD 0))

/-- The bytes stand for operands of these formats, whatever is behind them. -/
structure Fields (fs : List OperandFormat) (bytes : Bytes) (os : List DecodedOperand) : Prop where
  reads : ∀ offset rest, decodeOperands offset fs (bytes ++ rest) = .ok (os, rest)
  count : fs.length = os.length
  length : (operandsBytes Reg.id fs (os.map (·.toOperand))).length = bytes.length
  spelling : ∀ rest, Padded fs (bytes ++ rest) → operandsBytes Reg.id fs (os.map (·.toOperand)) = bytes

theorem of_field_eq_ok {α : Type} {r : Reader α} {a : α} (h : field offset r bytes = .ok (a, rest)) :
    r bytes = (some a, rest) := by
  unfold field at h
  split at h
  · rename_i hread
    cases h
    exact hread
  · cases h

theorem fields_of_decodeOperands (hfs : .longText ∉ fs)
    (h : decodeOperands offset fs bytes = .ok (os, rest)) :
    ∃ front, bytes = front ++ rest ∧ Fields fs front os := by
  induction fs generalizing bytes os with
  | nil =>
    cases h
    exact ⟨[], rfl, fun _ _ => rfl, rfl, rfl, fun _ _ => rfl⟩
  | cons f fs ih =>
    obtain ⟨hf, hfs⟩ := not_or.1 (mem_cons.not.1 hfs)
    obtain ⟨n, g, hreader, hwidth, hwritten⟩ := operandReader_eq (Ne.symm hf)
    obtain ⟨⟨o, bytes'⟩, hfield, h⟩ := of_bind_ok h
    obtain ⟨⟨os', rest'⟩, hrest, h⟩ := of_bind_ok h
    cases h
    obtain ⟨back, rfl, hback⟩ := ih hfs hrest
    obtain ⟨front, rfl, hlen, rfl⟩ := take_map_eq_some_iff.1 (hreader ▸ of_field_eq_ok hfield)
    obtain ⟨hlength, hspelling⟩ := hwritten front hlen
    refine ⟨front ++ back, (append_assoc ..).symm, fun offset rest => ?_, by simp [hback.count], ?_, ?_⟩
    · have hread : (operandReader f).Reads front (g front) :=
        fun rest => hreader ▸ take_map_eq_some_iff.2 ⟨front, rfl, hlen, rfl⟩
      rw [append_assoc, decodeOperands, field_of_reads hread]
      simp only [bind, Except.bind, hback.reads]
      rfl
    · rw [map_cons, operandsBytes_cons, length_append, length_append, hlength, hlen, hback.length]
    · intro rest hp
      rw [append_assoc] at hp
      obtain ⟨hpad, hpads⟩ := hp
      rw [hwidth, Option.getD_some, ← hlen, drop_left] at hpads
      rw [map_cons, operandsBytes_cons, hspelling fun htext => ?_, hback.spelling _ hpads]
      subst htext
      have hpad := hpad rfl
      rwa [show textFieldWidth = front.length from (Option.some.inj hwidth).trans hlen.symm, take_left]
        at hpad

/-! ## Instructions -/

/-- The formats that a layout is made of. -/
def formatsOf : OperandLayout → List OperandFormat
  | .fixed formats => formats
  | .grouped head group => head ++ group

/-- No opcode has a text with its length in front. -/
theorem longText_notMem {opcode : Opcode} {domain : FieldDomain} {count : Nat}
    (h : opcode.layout.formats? count = some fs) : .longText ∉ fs.map (·.inDomain domain) := by
  have hlayout : .longText ∉ formatsOf opcode.layout := by cases opcode <;> decide
  have hfs : .longText ∉ fs := by
    cases hl : opcode.layout with
    | fixed formats =>
      simp only [hl, OperandLayout.formats?] at h hlayout
      split_ifs at h
      cases h
      exact hlayout
    | grouped head group =>
      rw [hl] at h hlayout
      obtain ⟨-, n, -, rfl⟩ := OperandLayout.exists_of_formats?_grouped h
      intro hmem
      refine hlayout (mem_append.2 ((mem_append.1 hmem).imp_right fun hmem => ?_))
      obtain ⟨_, hgroup, hmem⟩ := mem_flatten.1 hmem
      rwa [(mem_replicate.1 hgroup).2] at hmem
  intro hmem
  obtain ⟨f, hf, heq⟩ := mem_map.1 hmem
  cases f <;> cases heq
  exact hfs hf

theorem codeIn?_of_ofForm? {code : Nat} {opcode : Opcode} {domain : FieldDomain}
    (h : Opcode.ofForm? code = some (opcode, domain)) : opcode.codeIn? domain = some code := by
  have hcode {n : Nat} {op : Opcode} (h : Opcode.ofCode? n = some op) : op.code = n := by
    simpa using find?_some h
  unfold Opcode.ofForm? at h
  split at h
  · obtain ⟨op, hop, heq⟩ := Option.map_eq_some_iff.1 h
    cases heq
    exact congrArg some (hcode hop)
  · split at h
    · rename_i hge op hop
      split_ifs at h with hext
      cases h
      have := hcode hop
      simp only [Opcode.codeIn?, hext, if_true, Option.some.injEq]
      omega
    · cases h

theorem formCode_of_ofForm? {i : Instruction} {code : Nat}
    (h : Opcode.ofForm? code = some (i.opcode, i.domain)) : i.formCode = code := by
  have hcode := codeIn?_of_ofForm? h
  unfold Instruction.formCode
  cases hd : i.domain with
  | base => simpa [hd, Opcode.codeIn?] using hcode
  | extension =>
    simp only [hd, Opcode.codeIn?] at hcode
    split_ifs at hcode
    simpa using hcode

theorem codeWord_of_splitWord {word : Nat} {isVector : Bool}
    (hsize : ¬isVector = ((splitWord word).2 == 0)) (h : word < 256 ^ 8) :
    codeWord (splitWord word).1 (if isVector then max (splitWord word).2 1 else 0) = word := by
  have hpart : (if isVector then max (splitWord word).2 1 else 0) = (splitWord word).2 := by
    cases isVector <;> simp at hsize ⊢ <;> omega
  rw [hpart]
  simp only [codeWord, splitWord, codeRange, wordRange, Nat.pow_eq]
  omega

theorem bytes_of_word {word : Bytes} {formats : List OperandFormat} (hlen : word.length = 8)
    (hform : Opcode.ofForm? (splitWord (ofBigEndian word)).1 = some (inst.opcode, inst.domain))
    (hvector : ¬inst.opcode.isVector = ((splitWord (ofBigEndian word)).2 == 0))
    (hsize : inst.size = max (splitWord (ofBigEndian word)).2 1)
    (hformats : inst.opcode.layout.formats? inst.operands.length = some formats) :
    inst.toInstruction.formats = formats.map (·.inDomain inst.domain) ∧
      inst.bytes = word ++
        ((if inst.opcode.layout.isGrouped then word32 inst.operands.length else []) ++
        operandsBytes Reg.id (formats.map (·.inDomain inst.domain))
          (inst.operands.map (·.toOperand))) := by
  have hfs : inst.toInstruction.formats = formats.map (·.inDomain inst.domain) := by
    simp only [Instruction.formats, DecodedInstruction.toInstruction, length_map, hformats,
      Option.getD_some]
  have hword : bigEndian 8 (codeWord inst.toInstruction.formCode
      (if inst.opcode.isVector then inst.size else 0)) = word := by
    rw [formCode_of_ofForm? hform, hsize, codeWord_of_splitWord hvector (hlen ▸ ofBigEndian_lt word)]
    exact hlen ▸ bigEndian_ofBigEndian word
  refine ⟨hfs, ?_⟩
  rw [← append_assoc, ← hword, ← length_map (·.toOperand), ← hfs]
  rfl

/-- The bytes stand for the instruction, wherever it is. -/
structure Spells (front : Bytes) (inst : DecodedInstruction) : Prop where
  reads : ∀ offset rest, decodeOne offset (front ++ rest) = .ok ({ inst with offset }, rest)
  length : inst.bytes.length = front.length
  spelling : ∀ rest, Padded inst.toInstruction.formats ((front ++ rest).drop inst.headLength) →
    inst.bytes = front

theorem of_field_unsigned {n value : Nat} (h : field offset (unsigned n) bytes = .ok (value, rest)) :
    ∃ front, bytes = front ++ rest ∧ front.length = n ∧ ofBigEndian front = value :=
  take_map_eq_some_iff.1 (of_field_eq_ok h)

theorem of_operandCount_eq_ok {layout : OperandLayout} {count : Nat}
    (h : operandCount offset layout bytes = .ok (count, rest)) :
    (layout.isGrouped → count < 2 ^ 32) ∧
      bytes = (if layout.isGrouped then word32 count else []) ++ rest := by
  unfold operandCount at h
  split at h
  · rename_i hg
    obtain ⟨⟨n, bytes'⟩, hfield, h⟩ := of_bind_ok h
    simp only [] at h
    split at h
    · cases h
    · cases h
      obtain ⟨front, rfl, hlen, rfl⟩ := of_field_unsigned hfield
      have hlt := ofBigEndian_lt front
      have hback := bigEndian_ofBigEndian front
      rw [hlen] at hlt hback
      rw [if_pos hg, word32, hback]
      exact ⟨fun _ => hlt, rfl⟩
  · rename_i hg
    cases h
    exact ⟨fun hg' => absurd hg' hg, by rw [if_neg hg, nil_append]⟩

theorem spells_of_decodeOne (h : decodeOne offset bytes = .ok (inst, rest)) :
    inst.offset = offset ∧ ∃ front, bytes = front ++ rest ∧ Spells front inst := by
  obtain ⟨⟨word, bytes₁⟩, hword, h⟩ := of_bind_ok h
  simp only [] at h
  split at h
  · cases h
  split at h
  · cases h
  rename_i opcode domain hform hvector
  obtain ⟨⟨count, bytes₂⟩, hcount, h⟩ := of_bind_ok h
  simp only [] at h
  split at h
  · cases h
  rename_i formats hformats
  obtain ⟨⟨operands, rest'⟩, hops, h⟩ := of_bind_ok h
  cases h
  obtain ⟨front, rfl, hlen, rfl⟩ := of_field_unsigned hword
  obtain ⟨hlt, rfl⟩ := of_operandCount_eq_ok hcount
  obtain ⟨back, rfl, hback⟩ := fields_of_decodeOperands (longText_notMem hformats) hops
  obtain rfl : operands.length = count := by
    rw [← hback.count, length_map, OperandLayout.length_of_formats? hformats]
  obtain ⟨hfs, hbytes⟩ := @bytes_of_word ⟨offset, opcode, domain, _, operands⟩ front formats hlen hform
    hvector rfl hformats
  refine ⟨rfl, front ++ ((if opcode.layout.isGrouped then word32 operands.length else []) ++ back),
    by simp only [append_assoc], ?_, ?_, fun rest hp => ?_⟩
  · intro offset rest
    have hread : (unsigned 8).Reads front (ofBigEndian front) :=
      fun rest => take_map_eq_some_iff.2 ⟨front, rfl, hlen, rfl⟩
    have hfour := @four_mul_le_length_operandsBytes Reg.id _ (operands.map (·.toOperand))
      (hback.count.trans (length_map _).symm)
    rw [length_map, hback.length] at hfour
    have hcount := @operandCount_of_formats? _ _ _ (back ++ rest) hformats hlt
      (by rw [length_append]; omega) offset
    simp only [append_assoc, decodeOne, field_of_reads hread, bind, Except.bind, hform, if_neg hvector,
      hcount, hformats, hback.reads]
    rfl
  · rw [hbytes, length_append, length_append, length_append, length_append, hback.length]
  · rw [hfs, append_assoc, append_assoc, ← append_assoc front, drop_left' ?_] at hp
    · rw [hbytes, hback.spelling rest hp]
    · rw [length_append, hlen, DecodedInstruction.headLength]
      split <;> simp

theorem Spells.moved (h : Spells front inst) (offset : Nat) : Spells front { inst with offset } :=
  ⟨h.reads, h.length, h.spelling⟩

theorem Spells.ne_nil (h : Spells front inst) : front ≠ [] := by
  rintro rfl
  have hlen := h.length
  simp [DecodedInstruction.bytes, Instruction.encode] at hlen

/-! ## Tapes -/

/-- The bytes from `offset` on stand for the instructions. -/
inductive SpellsAll : Nat → Bytes → List DecodedInstruction → Prop
  | nil (offset : Nat) : SpellsAll offset [] []
  | cons {inst : DecodedInstruction} {is : List DecodedInstruction} {front bytes : Bytes}
      (h : Spells front inst) (hs : SpellsAll (inst.offset + front.length) bytes is) :
      SpellsAll inst.offset (front ++ bytes) (inst :: is)

theorem SpellsAll.decodeFrom_append (h : SpellsAll offset bytes is) (rest : Bytes) :
    decodeFrom offset (bytes ++ rest) = (is ++ (decodeFrom (offset + bytes.length) rest).1,
      (decodeFrom (offset + bytes.length) rest).2) := by
  induction h with
  | nil offset => rfl
  | cons h hs ih =>
    rw [append_assoc, decodeFrom_cons h.ne_nil (h.reads _ _), ih, length_append, ← Nat.add_assoc]
    rfl

theorem decodeFrom_eq_iff : decodeFrom offset bytes = (is, none) ↔ SpellsAll offset bytes is := by
  constructor
  · intro h
    fun_induction decodeFrom offset bytes generalizing is with
    | case1 offset bytes hempty =>
      cases h
      rw [isEmpty_iff.1 hempty]
      exact .nil offset
    | case2 => cases h
    | case3 offset bytes hempty inst rest hone _ insts fault heq ih =>
      cases h
      obtain ⟨rfl, front, rfl, hspells⟩ := spells_of_decodeOne hone
      rw [length_append, Nat.add_sub_cancel] at ih heq
      exact .cons hspells (ih heq)
  · intro h
    have hall := h.decodeFrom_append []
    rw [append_nil] at hall
    rw [hall]
    simp [decodeFrom]

theorem decode_eq_ok_iff : decode bytes = .ok is ↔ SpellsAll 0 bytes is := by
  rw [← decodeFrom_eq_iff, decode]
  split
  · rename_i insts heq
    simp [heq]
  · rename_i insts fault heq
    simp [heq]

/-- The texts of a tape that is read as these instructions are padded. -/
def PaddedTexts (bytes : Bytes) (is : List DecodedInstruction) : Prop :=
  ∀ i ∈ is, Padded i.toInstruction.formats (bytes.drop (i.offset + i.headLength))

namespace SpellsAll

theorem shift (h : SpellsAll offset bytes is) (n : Nat) :
    SpellsAll (n + offset) bytes (is.map (·.shift n)) := by
  induction h with
  | nil offset => exact .nil _
  | @cons inst is front bytes h hs ih =>
    rw [← Nat.add_assoc] at ih
    exact .cons (h.moved (n + inst.offset)) ih

theorem of_shift {n : Nat} (h : SpellsAll (n + offset) bytes is) :
    ∃ js, is = js.map (·.shift n) ∧ SpellsAll offset bytes js := by
  generalize hm : n + offset = m at h
  induction h generalizing offset with
  | nil => exact ⟨[], rfl, .nil _⟩
  | @cons inst is front bytes h hs ih =>
    obtain ⟨js, rfl, hjs⟩ := @ih (offset + front.length) (by omega)
    refine ⟨{ inst with offset } :: js, ?_, .cons (h.moved offset) hjs⟩
    rw [map_cons, DecodedInstruction.shift, hm]

theorem offsets (h : SpellsAll offset bytes is) :
    (is.map (·.offset)).Pairwise (· < ·) ∧ ∀ i ∈ is, offset ≤ i.offset := by
  induction h with
  | nil => exact ⟨.nil, fun _ h => absurd h not_mem_nil⟩
  | @cons inst is front bytes h hs ih =>
    have hpos := length_pos_iff.2 h.ne_nil
    have hlater (i : DecodedInstruction) (hi : i ∈ is) : inst.offset < i.offset := by
      have := ih.2 i hi
      omega
    exact ⟨pairwise_cons.2 ⟨forall_mem_map.2 hlater, ih.1⟩,
      forall_mem_cons.2 ⟨Nat.le_refl _, fun i hi => (hlater i hi).le⟩⟩

theorem sum_length (h : SpellsAll offset bytes is) :
    (is.map (·.bytes.length)).sum = bytes.length := by
  induction h with
  | nil => rfl
  | @cons inst is front bytes h hs ih =>
    rw [map_cons, sum_cons, ih, h.length, length_append]

theorem eq_flatMap_bytes {pre : Bytes} (h : SpellsAll pre.length bytes is)
    (hp : PaddedTexts (pre ++ bytes) is) : bytes = is.flatMap (·.bytes) := by
  generalize hpre : pre.length = offset at h
  induction h generalizing pre with
  | nil => rfl
  | @cons inst is front bytes h hs ih =>
    obtain ⟨hfirst, hrest⟩ := forall_mem_cons.1 hp
    rw [← hpre, ← drop_drop, drop_left] at hfirst
    rw [← append_assoc] at hrest
    rw [flatMap_cons, h.spelling bytes hfirst, ← ih hrest (by rw [length_append, hpre])]

end SpellsAll

/-- Where a tape is read as instructions, it is so in front of any other tape. The instructions are
in order and take all of its bytes, and no other padded tape is read as them. -/
theorem decode_unambiguous {a : Bytes} {is : List DecodedInstruction} (ha : decode a = .ok is) :
    (∀ b ks, decode (a ++ b) = .ok ks ↔
      ∃ js, decode b = .ok js ∧ ks = is ++ js.map (·.shift a.length)) ∧
    (is.map (·.offset)).Pairwise (· < ·) ∧ (is.map (·.bytes.length)).sum = a.length ∧
    (PaddedTexts a is → ∀ b, decode b = .ok is → PaddedTexts b is → a = b) := by
  have hall := decode_eq_ok_iff.1 ha
  refine ⟨fun b ks => ?_, hall.offsets.1, hall.sum_length, fun hpa b hb hpb => ?_⟩
  · rw [decode_eq_ok_iff, ← decodeFrom_eq_iff, hall.decodeFrom_append, Nat.add_comm 0, Prod.mk.injEq]
    constructor
    · rintro ⟨rfl, hnone⟩
      obtain ⟨js, hjs, hb⟩ := (decodeFrom_eq_iff.1 (Prod.ext rfl hnone)).of_shift
      exact ⟨js, decode_eq_ok_iff.2 hb, congrArg (is ++ ·) hjs⟩
    · rintro ⟨js, hb, rfl⟩
      rw [decodeFrom_eq_iff.2 ((decode_eq_ok_iff.1 hb).shift a.length)]
      exact ⟨rfl, rfl⟩
  · rw [@SpellsAll.eq_flatMap_bytes _ _ [] hall hpa,
      @SpellsAll.eq_flatMap_bytes _ _ [] (decode_eq_ok_iff.1 hb) hpb]

/-- A tape that prints a text, twice. -/
theorem decode_unambiguous_print :
    let a : Bytes := [0, 0, 0, 0, 0, 0, 0, 0xb5, 0x61, 0x62] ++ List.replicate 14 0
    let print (offset : Nat) : DecodedInstruction := ⟨offset, .printText, .base, 1, [.text "ab"]⟩
    decode (a ++ a) = .ok [print 0, print 24] ∧
      ∀ b, decode b = .ok [print 0] → PaddedTexts b [print 0] → a = b := by
  intro a print
  have ha : decode a = .ok [print 0] := by decide +kernel
  have hp : PaddedTexts a [print 0] := by
    refine forall_mem_singleton.2 ⟨fun _ => ?_, trivial⟩
    unfold IsPadded
    decide +kernel
  obtain ⟨happend, -, -, hone⟩ := decode_unambiguous ha
  exact ⟨(happend a _).2 ⟨_, ha, rfl⟩, hone hp⟩

end Bytecode

end SecureTape
