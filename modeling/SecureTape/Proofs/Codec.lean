import Mathlib
import SecureTape.Bytecode.Decoded
import SecureTape.Proofs.WellFormed

/-!
# Decoding undoes encoding

Main statement: `decode_encode`, the bytes of a list of built instructions are read back as these
instructions, each at the byte where its code starts.

1. A reader gives back what was written and leaves the bytes behind it (`Reader.Reads`); texts are
   plain ASCII, so one byte is one character.
2. An operand that fits its format is read back (`reads_operand`), and so are the operands of an
   instruction, whatever stands behind them.
3. The code word names the form (`ofForm?_formCode`), and the guard on the operand count passes,
   since every operand takes at least four bytes.
-/

namespace SecureTape

open List Instruction Wire Reader Text

/-! ## Numbers -/

theorem ofBigEndian_bigEndian (n value : Nat) :
    ofBigEndian (bigEndian n value) = value % 256 ^ n := by
  induction n generalizing value with
  | zero => simp [bigEndian, ofBigEndian, Nat.mod_one]
  | succ n ih =>
    have hb : (UInt8.ofNat value).toNat = value % 256 := UInt8.toNat_ofNat'
    rw [bigEndian, ofBigEndian_append_singleton, ih, hb, Nat.pow_succ', Nat.mod_mul]
    omega

theorem toSigned_toUnsigned {bits : Nat} {value : Int} (hb : 0 < bits)
    (hlo : -(2 ^ (bits - 1) : Nat) ≤ value) (hhi : value < (2 ^ (bits - 1) : Nat)) :
    toSigned bits (toUnsigned bits value) = value := by
  have hpow : 2 ^ bits = 2 * 2 ^ (bits - 1) := (mul_pow_sub_one hb.ne' 2).symm
  show (if (value % ((2 ^ bits : Nat) : Int)).toNat < 2 ^ (bits - 1) then
      ((value % ((2 ^ bits : Nat) : Int)).toNat : Int)
    else (value % ((2 ^ bits : Nat) : Int)).toNat - ((2 ^ bits : Nat) : Int)) = value
  rw [hpow]
  generalize 2 ^ (bits - 1) = m at *
  by_cases hneg : 0 ≤ value
  · rw [Int.emod_eq_of_lt hneg (by omega)]
    split <;> omega
  · have : value % ((2 * m : Nat) : Int) = value + (2 * m : Nat) := by
      rw [← Int.add_emod_right, Int.emod_eq_of_lt] <;> omega
    rw [this]
    split <;> omega

theorem toUnsigned_lt (bits : Nat) (value : Int) : toUnsigned bits value < 2 ^ bits := by
  have hpos : (0 : Int) < (2 ^ bits : Nat) := by exact_mod_cast Nat.two_pow_pos bits
  have hnonneg := Int.emod_nonneg value (Int.ne_of_gt hpos)
  have hlt := Int.emod_lt_of_pos value hpos
  show (value % ((2 ^ bits : Nat) : Int)).toNat < 2 ^ bits
  omega

theorem toUnsigned_toSigned {bits value : Nat} (hb : 0 < bits) (h : value < 2 ^ bits) :
    toUnsigned bits (toSigned bits value) = value := by
  have hpow : 2 ^ bits = 2 * 2 ^ (bits - 1) := (mul_pow_sub_one hb.ne' 2).symm
  show ((if value < 2 ^ (bits - 1) then (value : Int) else value - ((2 ^ bits : Nat) : Int)) %
    ((2 ^ bits : Nat) : Int)).toNat = value
  rw [hpow] at h ⊢
  generalize 2 ^ (bits - 1) = m at *
  split
  · rw [Int.emod_eq_of_lt] <;> omega
  · rw [← Int.add_emod_right, Int.emod_eq_of_lt] <;> omega

/-! ## Readers -/

namespace Reader

variable {α β : Type}

/-- The reader takes exactly `bytes` off the front, and they stand for `a`. -/
def Reads (r : Reader α) (bytes : Bytes) (a : α) : Prop :=
  ∀ rest, r (bytes ++ rest) = (some a, rest)

theorem Reads.map {r : Reader α} {bytes : Bytes} {a : α} (h : r.Reads bytes a) (f : α → β) :
    (r.map f).Reads bytes (f a) := by
  intro rest
  simp [Reader.map, h rest]

theorem Reads.andThen {r : Reader α} {k : α → Reader β} {bytes bytes' : Bytes} {a : α} {b : β}
    (h : r.Reads bytes a) (hk : (k a).Reads bytes' b) :
    (r.andThen k).Reads (bytes ++ bytes') b := by
  intro rest
  simp [Reader.andThen, h (bytes' ++ rest), hk rest]

theorem reads_take (bytes : Bytes) : (take bytes.length).Reads bytes bytes := by
  intro rest
  exact take_eq_some_iff.2 ⟨rfl, rfl⟩

theorem reads_unsigned {n value : Nat} (h : value < 256 ^ n) :
    (unsigned n).Reads (bigEndian n value) value := by
  have hread := (reads_take (bigEndian n value)).map ofBigEndian
  rwa [length_bigEndian, ofBigEndian_bigEndian, Nat.mod_eq_of_lt h] at hread

theorem reads_signed {n : Nat} {value : Int} (hn : 0 < n) (hlo : -(2 ^ (8 * n - 1) : Nat) ≤ value)
    (hhi : value < (2 ^ (8 * n - 1) : Nat)) :
    (signed n).Reads (bigEndian n (toUnsigned (8 * n) value)) value := by
  have hlt : toUnsigned (8 * n) value < 256 ^ n := by
    have h := toUnsigned_lt (8 * n) value
    rwa [Nat.pow_mul] at h
  have hread := (reads_unsigned hlt).map (toSigned (8 * n))
  rwa [toSigned_toUnsigned (by omega) hlo hhi] at hread

end Reader

/-! ## Texts -/

namespace Text

theorem utf8EncodeChar_plain {c : Char} (h : c.toNat < 0x80) :
    String.utf8EncodeChar c = [UInt8.ofNat c.toNat] := by
  have hone : c.utf8Size = 1 := by
    rw [Char.utf8Size_eq_one_iff, UInt32.le_iff_toNat_le]
    show c.toNat ≤ 127
    omega
  rw [String.utf8EncodeChar_eq_singleton hone]
  rfl

theorem charsOfUtf8_plain {cs : List Char} (h : ∀ c ∈ cs, c.toNat < 0x80) :
    charsOfUtf8 (cs.flatMap String.utf8EncodeChar) = cs := by
  induction cs with
  | nil => simp [charsOfUtf8]
  | cons c cs ih =>
    have hc : c.toNat < 0x80 := h c (by simp)
    have hbyte : (UInt8.ofNat c.toNat).toNat = c.toNat := by
      rw [UInt8.toNat_ofNat']
      omega
    rw [flatMap_cons, utf8EncodeChar_plain hc, singleton_append, charsOfUtf8]
    simp only [charAt, hbyte, if_pos hc, drop_zero, Char.ofNat_toNat]
    rw [ih fun d hd => h d (by simp [hd])]

theorem ofUtf8_utf8 {s : String} (h : isPlainText s) : ofUtf8 (utf8 s) = s := by
  have hplain : ∀ c ∈ s.toList, c.toNat < 0x80 := by
    intro c hc
    have := all_eq_true.1 h c hc
    simp only [Bool.and_eq_true, decide_eq_true_eq] at this
    exact this.1
  rw [ofUtf8, utf8, charsOfUtf8_plain hplain, String.ofList_toList]

theorem length_utf8 (s : String) : (utf8 s).length = s.utf8ByteSize := by
  have h := congrArg ByteArray.size (String.utf8Encode_toList (b := s))
  rw [String.size_toByteArray] at h
  rw [← h, List.utf8Encode]
  simp [utf8]

theorem ne_zero_of_mem_utf8 {s : String} (h : isPlainText s) : ∀ b ∈ utf8 s, b ≠ 0 := by
  intro b hb
  obtain ⟨c, hc, hb⟩ := mem_flatMap.1 hb
  have hp := all_eq_true.1 h c hc
  simp only [Bool.and_eq_true, decide_eq_true_eq] at hp
  rw [utf8EncodeChar_plain hp.1, mem_singleton] at hb
  intro h0
  have := congrArg UInt8.toNat (hb.symm.trans h0)
  rw [UInt8.toNat_ofNat'] at this
  have hzero : (0 : UInt8).toNat = 0 := rfl
  omega

end Text

/-! ## Fields -/

namespace Wire

theorem reads_word32 {value : Nat} (h : value < 2 ^ 32) :
    (unsigned 4).Reads (word32 value) value :=
  reads_unsigned h

theorem reads_signed32 {value : Int} (h : fitsSigned32 value) :
    (signed 4).Reads (signed32 value) value := by
  simp only [fitsSigned32, Bool.and_eq_true, decide_eq_true_eq] at h
  exact reads_signed (by decide) h.1 h.2

def FitsSigned64 (value : Int) : Prop :=
  -(2 ^ 63 : Nat) ≤ value ∧ value < (2 ^ 63 : Nat)

theorem reads_signed64 {value : Int} (h : FitsSigned64 value) :
    (signed 8).Reads (signed64 value) value :=
  reads_signed (by decide) h.1 h.2

theorem reads_textField {s : String} (hp : isPlainText s) (hs : s.utf8ByteSize ≤ textFieldWidth) :
    readTextField.Reads (textField s) s := by
  have htake : (utf8 s).take textFieldWidth = utf8 s :=
    take_of_length_le (by rwa [length_utf8])
  have hstrip : (textField s).takeWhile (· ≠ 0) = utf8 s := by
    simp only [textField, htake]
    rw [takeWhile_append_of_pos (by simpa using ne_zero_of_mem_utf8 hp)]
    cases textFieldWidth - (utf8 s).length <;> simp [replicate_succ]
  have hread := (reads_take (textField s)).map fun bytes =>
    ofUtf8 (bytes.takeWhile (· ≠ 0))
  rwa [length_textField, hstrip, ofUtf8_utf8 hp] at hread

theorem reads_longText {s : String} (hp : isPlainText s) (hs : s.utf8ByteSize ≤ maxLongText) :
    readLongText.Reads (longText s) s := by
  have hlen : (utf8 s).length < 2 ^ 32 := by
    rw [length_utf8]
    unfold maxLongText at hs
    simp only [Nat.pow_eq] at hs
    omega
  refine (reads_word32 hlen).andThen ?_
  have hread := (reads_take (utf8 s)).map ofUtf8
  rwa [ofUtf8_utf8 hp] at hread

end Wire

/-! ## Operands -/

namespace Bytecode

variable {resolve : Reg → Nat}

def decodedOperand (resolve : Reg → Nat) : OperandFormat → Operand → DecodedOperand
  | .reg cls _, .reg r => .reg cls (resolve r)
  | _, .reg r => .anyReg (resolve r)
  | _, .callee r => .callee (resolve r)
  | _, .number value => .number value
  | _, .text value => .text value

theorem reads_operand (hr : ∀ r, resolve r < 2 ^ 32) {f : OperandFormat} {o : Operand}
    (hf : OperandFits f o) (hv : ∀ value, o = .number value → Wire.FitsSigned64 value) :
    (operandReader f).Reads (operandBytes resolve f o) (decodedOperand resolve f o) := by
  cases hf with
  | reg _ _ r | anyReg _ r | callee r => exact (reads_word32 (hr r)).map _
  | imm h | int h | player h => exact (reads_signed32 h).map _
  | long value => exact (reads_signed64 (hv value rfl)).map _
  | text hp hs => exact (reads_textField hp hs).map _
  | longText hp hs => exact (reads_longText hp hs).map _

theorem four_le_length_operandBytes (f : OperandFormat) (o : Operand) :
    4 ≤ (operandBytes resolve f o).length := by
  cases o with
  | reg r | callee r => simp [operandBytes]
  | number value =>
    simp only [operandBytes]
    split <;> simp
  | text value =>
    simp only [operandBytes]
    split
    · simp [longText]
    · simp [textFieldWidth]

/-- The bytes of operands with their formats. -/
def operandsBytes (resolve : Reg → Nat) (fs : List OperandFormat) (os : List Operand) : Bytes :=
  (fs.zip os).flatMap fun (f, o) => Instruction.operandBytes resolve f o

@[simp] theorem operandsBytes_cons (f : OperandFormat) (fs : List OperandFormat) (o : Operand)
    (os : List Operand) : operandsBytes resolve (f :: fs) (o :: os) =
      operandBytes resolve f o ++ operandsBytes resolve fs os := rfl

theorem four_mul_le_length_operandsBytes {fs : List OperandFormat} {os : List Operand}
    (h : fs.length = os.length) : 4 * os.length ≤ (operandsBytes resolve fs os).length := by
  induction fs generalizing os with
  | nil =>
    obtain rfl : os = [] := eq_nil_of_length_eq_zero h.symm
    simp
  | cons f fs ih =>
    cases os with
    | nil => simp at h
    | cons o os =>
      have hos := @ih os (by simpa using h)
      have ho := @four_le_length_operandBytes resolve f o
      simp only [operandsBytes_cons, length_append, length_cons]
      omega

theorem field_of_reads {α : Type} {r : Reader α} {bytes : Bytes} {a : α} (h : r.Reads bytes a)
    (offset : Nat) (rest : Bytes) : field offset r (bytes ++ rest) = .ok (a, rest) := by
  simp [field, h rest]

theorem decodeOperands_operandsBytes (hr : ∀ r, resolve r < 2 ^ 32) (offset : Nat)
    {fs : List OperandFormat} {os : List Operand} (hf : Forall₂ OperandFits fs os)
    (hv : ∀ value, .number value ∈ os → Wire.FitsSigned64 value) (rest : Bytes) :
    decodeOperands offset fs (operandsBytes resolve fs os ++ rest) =
      .ok (List.zipWith (decodedOperand resolve) fs os, rest) := by
  induction hf with
  | nil => rfl
  | @cons f o fs os hfo hfs ih =>
    have hread := reads_operand hr hfo fun value h => hv value (by simp [h])
    have hfield := field_of_reads hread offset (operandsBytes resolve fs os ++ rest)
    have hrest := ih fun value h => hv value (by simp [h])
    simp only [operandsBytes_cons, append_assoc, decodeOperands, hfield, bind, Except.bind,
      hrest]
    rfl

/-! ## Instructions -/

/-- Sizes and numbers that the bytecode can hold: the operand count takes 32 bits, the size what
the code leaves of its word, and the largest number format 64 bits. -/
structure Encodable (i : Instruction) : Prop where
  count_lt : i.operands.length < 2 ^ 32
  size_le : i.size ≤ Wire.maxVectorSize
  numbers : ∀ value, .number value ∈ i.operands → Wire.FitsSigned64 value

def decodedAt (resolve : Reg → Nat) (offset : Nat) (i : Instruction) : DecodedInstruction where
  offset := offset
  opcode := i.opcode
  domain := i.domain
  size := if i.opcode.isVector then i.size else 1
  operands := List.zipWith (decodedOperand resolve) i.formats i.operands

/-- What instructions from a byte on are read back as, each where its bytes start. -/
def decodedFrom (resolve : Reg → Nat) : Nat → List Instruction → List DecodedInstruction
  | _, [] => []
  | offset, i :: is =>
    decodedAt resolve offset i :: decodedFrom resolve (offset + (i.encode resolve).length) is

variable {i : Instruction}

theorem ofForm?_formCode (h : i.WellFormed) :
    Opcode.ofForm? i.formCode = some (i.opcode, i.domain) := by
  apply Opcode.ofForm?_of_codeIn?
  cases hd : i.domain with
  | base => simp [Opcode.codeIn?, formCode, hd]
  | extension => simp [Opcode.codeIn?, formCode, hd, h.form hd]

theorem formCode_lt (i : Instruction) : i.formCode < codeRange := by
  have := i.opcode.code_lt
  simp only [formCode, Opcode.extensionOffset, codeRange, Nat.pow_eq] at *
  split <;> omega

theorem field_codeWord (hs : i.size ≤ maxVectorSize) (offset : Nat) (rest : Bytes) :
    ∃ word, field offset (unsigned 8) (bigEndian 8 (codeWord i.formCode
        (if i.opcode.isVector then i.size else 0)) ++ rest) = .ok (word, rest) ∧
      splitWord word = (i.formCode, if i.opcode.isVector then i.size else 0) := by
  refine ⟨_, field_of_reads (reads_unsigned (codeWord_lt _ _)) offset rest, ?_⟩
  refine splitWord_codeWord (formCode_lt i) ?_
  split
  · exact hs
  · exact Nat.zero_le _

/-- The operand count is read back, and the guard on it passes if every operand takes four bytes or
more. -/
theorem operandCount_of_formats? {layout : OperandLayout} {count : Nat} {fs : List OperandFormat}
    {rest : Bytes} (hfs : layout.formats? count = some fs) (hc : layout.isGrouped → count < 2 ^ 32)
    (hlen : 4 * count ≤ rest.length) (offset : Nat) :
    operandCount offset layout ((if layout.isGrouped then word32 count else []) ++ rest) =
      .ok (count, rest) := by
  cases layout with
  | fixed formats =>
    simp only [OperandLayout.formats?] at hfs
    split_ifs at hfs with hcount
    rw [← hcount]
    rfl
  | grouped head group =>
    have hguard : ¬ count > rest.length / 4 := by omega
    simp only [operandCount, OperandLayout.isGrouped, if_true, field_of_reads (reads_word32 (hc rfl)),
      bind, Except.bind, if_neg hguard]
    rfl

theorem decodeOne_encode (hr : ∀ r, resolve r < 2 ^ 32) (hw : i.WellFormed) (he : Encodable i)
    (offset : Nat) (rest : Bytes) :
    decodeOne offset (i.encode resolve ++ rest) = .ok (decodedAt resolve offset i, rest) := by
  obtain ⟨fs, hfs⟩ := Option.isSome_iff_exists.1 hw.count
  have hformats : fs.map (·.inDomain i.domain) = i.formats := by
    simp [formats, hfs]
  have hbytes : i.encode resolve ++ rest =
      bigEndian 8 (codeWord i.formCode (if i.opcode.isVector then i.size else 0)) ++
        ((if i.opcode.layout.isGrouped then word32 i.operands.length else []) ++
          (operandsBytes resolve i.formats i.operands ++ rest)) := by
    simp only [encode, operandsBytes, append_assoc]
  obtain ⟨word, hword, hsplit⟩ := field_codeWord he.size_le offset
    ((if i.opcode.layout.isGrouped then word32 i.operands.length else []) ++
      (operandsBytes resolve i.formats i.operands ++ rest))
  have hops := decodeOperands_operandsBytes hr offset hw.fits he.numbers rest
  have hfour := @four_mul_le_length_operandsBytes resolve _ _ hw.fits.length_eq
  have hcount := @operandCount_of_formats? _ _ _ (operandsBytes resolve i.formats i.operands ++ rest)
    hfs (fun _ => he.count_lt) (by rw [length_append]; omega) offset
  -- the size field is zero exactly for an opcode without a vector form
  have hsize : ¬ i.opcode.isVector = ((if i.opcode.isVector then i.size else 0) == 0) := by
    have := hw.size_pos
    cases i.opcode.isVector <;> simp
    omega
  have hmax : max (if i.opcode.isVector then i.size else 0) 1 =
      if i.opcode.isVector then i.size else 1 := by
    have := hw.size_pos
    split <;> omega
  simp only [decodeOne, hbytes, hword, bind, Except.bind, hsplit, ofForm?_formCode hw,
    if_neg hsize, hcount, hfs, hformats, hops, pure, Except.pure, hmax]
  rfl

theorem encode_ne_nil (i : Instruction) : i.encode resolve ≠ [] := by
  intro h
  have := congrArg List.length h
  simp [encode] at this

theorem decodeFrom_cons {front rest : Bytes} {inst : DecodedInstruction} {offset : Nat}
    (hne : front ≠ []) (h : decodeOne offset (front ++ rest) = .ok (inst, rest)) :
    decodeFrom offset (front ++ rest) = (inst :: (decodeFrom (offset + front.length) rest).1,
      (decodeFrom (offset + front.length) rest).2) := by
  rw [decodeFrom, if_neg (by simp [hne])]
  split
  · rename_i hfault
    rw [h] at hfault
    cases hfault
  · rename_i hok
    rw [h] at hok
    cases hok
    simp only [length_append, Nat.add_sub_cancel]

theorem decodeFrom_encode (hr : ∀ r, resolve r < 2 ^ 32) {is : List Instruction}
    (hw : ∀ i ∈ is, i.WellFormed) (he : ∀ i ∈ is, Encodable i) (offset : Nat) :
    decodeFrom offset (is.flatMap (·.encode resolve)) = (decodedFrom resolve offset is, none) := by
  induction is generalizing offset with
  | nil => simp [decodeFrom, decodedFrom]
  | cons i is ih =>
    have hone := decodeOne_encode hr (hw i (by simp)) (he i (by simp)) offset
      (is.flatMap (·.encode resolve))
    have hrest := ih (fun j hj => hw j (by simp [hj])) (fun j hj => he j (by simp [hj]))
      (offset + (i.encode resolve).length)
    rw [flatMap_cons, decodeFrom_cons (encode_ne_nil i) hone, hrest]
    rfl

/-- Decoding undoes encoding: the bytes of built instructions are read back as one instruction
each, in order, at the byte where its code starts, with its form, its size and its operands. -/
theorem decode_encode (resolve : Reg → UInt32) {is : List Instruction}
    (hb : ∀ i ∈ is, i.Built) (he : ∀ i ∈ is, Encodable i) :
    decode (is.flatMap (·.encode fun r => (resolve r).toNat)) =
      .ok (decodedFrom (fun r => (resolve r).toNat) 0 is) := by
  have hr : ∀ r, (resolve r).toNat < 2 ^ 32 := fun r => (resolve r).toNat_lt
  rw [decode, decodeFrom_encode hr (fun i hi => (hb i hi).wellFormed) he]

/-- Two openings merged into one, and a text with a negative number behind them. -/
theorem decode_encode_merged_open :
    decode (([⟨.reveal, .extension, 2, [.number 0, .reg ⟨0, 0⟩, .reg ⟨0, 1⟩, .reg ⟨0, 2⟩, .reg ⟨0, 3⟩]⟩,
        ⟨.usePrep, .base, 1, [.text "bits", .number (-1)]⟩] : List Instruction).flatMap
          (·.encode fun r => (UInt32.ofNat (r.id + 4294967290)).toNat)) =
      .ok [⟨0, .reveal, .extension, 2, [.number 0, .reg .clearExt 4294967290,
          .reg .secretExt 4294967291, .reg .clearExt 4294967292, .reg .secretExt 4294967293]⟩,
        ⟨32, .usePrep, .base, 1, [.text "bits", .number (-1)]⟩] := by
  let regs : RegisterFile :=
    { tape := 0
      regs := #[{ cls := .clearExt, size := 2, index := 0 },
        { cls := .secretExt, size := 2, index := 0 },
        { cls := .clearExt, size := 2, index := 2 }, { cls := .secretExt, size := 2, index := 2 }] }
  have hfirst : (⟨.reveal, .extension, 2, [.number 0, .reg ⟨0, 0⟩, .reg ⟨0, 1⟩]⟩ :
      Instruction).Built := .of_make_self regs rfl
  have hsecond : (⟨.reveal, .extension, 2, [.number 0, .reg ⟨0, 2⟩, .reg ⟨0, 3⟩]⟩ :
      Instruction).Built := .of_make_self regs rfl
  have hprep : (⟨.usePrep, .base, 1, [.text "bits", .number (-1)]⟩ : Instruction).Built :=
    .of_make_self regs rfl
  refine (decode_encode (fun r => UInt32.ofNat (r.id + 4294967290)) ?_ ?_).trans (by rfl)
  · rintro i (_ | ⟨_, _ | ⟨_, hi⟩⟩)
    · exact hfirst.absorb hsecond rfl
    · exact hprep
    · cases hi
  · intro i hi
    simp only [mem_cons, not_mem_nil, or_false] at hi
    rcases hi with rfl | rfl
    · exact ⟨by decide, by decide, by simp [Wire.FitsSigned64]⟩
    · exact ⟨by decide, by decide, by simp [Wire.FitsSigned64]⟩

end Bytecode

end SecureTape
