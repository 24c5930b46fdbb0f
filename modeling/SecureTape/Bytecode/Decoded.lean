import SecureTape.Machine.Opcode
import SecureTape.Machine.Wire

/-!
# Decoding bytecode

A tape of bytecode is a sequence of instructions without gaps. Each starts with its code word; a
grouped layout then gives the number of operands; the operands follow in the formats of the
opcode's form.

Main statement: `length_lt_of_decodeOne`, an instruction is never empty, so decoding a tape ends.
-/

namespace SecureTape

inductive DecodedOperand where
  /-- A register whose class the opcode fixes. -/
  | reg (cls : RegisterClass) (index : Nat)
  /-- A register whose class another operand gives. -/
  | anyReg (index : Nat)
  | callee (index : Nat)
  | number (value : Int)
  | text (value : String)
  deriving Repr, DecidableEq

structure DecodedInstruction where
  offset : Nat
  opcode : Opcode
  domain : FieldDomain
  /-- The vector size, 1 for an opcode without a vector form. -/
  size : Nat
  operands : List DecodedOperand
  deriving Repr, DecidableEq

inductive DecodeFault where
  | unknownOpcode (code : Nat)
  | truncated (offset : Nat)
  | invalidOperandCount (opcode : Opcode) (count : Nat)
  | invalidVectorSize (opcode : Opcode) (size : Nat)
  deriving Repr, DecidableEq

namespace DecodedInstruction

def jumpOffset? (inst : DecodedInstruction) : Option Int :=
  if inst.opcode.isJump then
    match inst.operands.getLast? with
    | some (.number offset) => some offset
    | _ => none
  else none

end DecodedInstruction

namespace Bytecode

/-- A field of the instruction at `offset`: the instruction is truncated where it is missing. -/
def field {α : Type} (offset : Nat) (r : Reader α) (bytes : Bytes) :
    Except DecodeFault (α × Bytes) :=
  match r bytes with
  | (some a, rest) => .ok (a, rest)
  | (none, _) => .error (.truncated offset)

def operandReader : OperandFormat → Reader DecodedOperand
  | .reg cls _ => (Reader.unsigned 4).map (.reg cls)
  | .anyReg _ => (Reader.unsigned 4).map .anyReg
  | .callee => (Reader.unsigned 4).map .callee
  | .long => (Reader.signed 8).map .number
  | .imm | .int | .player => (Reader.signed 4).map .number
  | .text => Wire.readTextField.map .text
  | .longText => Wire.readLongText.map .text

def decodeOperands (offset : Nat) :
    List OperandFormat → Bytes → Except DecodeFault (List DecodedOperand × Bytes)
  | [], bytes => .ok ([], bytes)
  | f :: fs, bytes => do
    let (operand, bytes) ← field offset (operandReader f) bytes
    let (operands, bytes) ← decodeOperands offset fs bytes
    return (operand :: operands, bytes)

/-- The number of operands of the instruction at `offset`. A grouped layout states it, and the
bytes left over have to hold that many operands of four bytes. -/
def operandCount (offset : Nat) (layout : OperandLayout) (bytes : Bytes) :
    Except DecodeFault (Nat × Bytes) := do
  if layout.isGrouped then
    let (count, bytes) ← field offset (Reader.unsigned 4) bytes
    if count > bytes.length / 4 then
      throw (.truncated offset)
    return (count, bytes)
  else
    return (layout.headLength, bytes)

def decodeOne (offset : Nat) (bytes : Bytes) : Except DecodeFault (DecodedInstruction × Bytes) := do
  let (word, bytes) ← field offset (Reader.unsigned 8) bytes
  let (code, size) := Wire.splitWord word
  match Opcode.ofForm? code with
  | none => throw (.unknownOpcode code)
  | some (opcode, domain) =>
    if opcode.isVector = (size == 0) then
      throw (.invalidVectorSize opcode size)
    let (count, bytes) ← operandCount offset opcode.layout bytes
    match opcode.layout.formats? count with
    | none => throw (.invalidOperandCount opcode count)
    | some formats =>
      let (operands, bytes) ←
        decodeOperands offset (formats.map (·.inDomain domain)) bytes
      return ({ offset, opcode, domain, size := max size 1, operands }, bytes)

/-! ## Instructions take bytes -/

theorem shrinks_operandReader (f : OperandFormat) : (operandReader f).Shrinks := by
  cases f <;> first
    | exact (Reader.shrinks_unsigned _).map _
    | exact (Reader.shrinks_signed _).map _
    | exact Wire.shrinks_readTextField.map _
    | exact Wire.shrinks_readLongText.map _

theorem length_le_of_field {α : Type} {offset : Nat} {r : Reader α} (hr : r.Shrinks)
    {bytes rest : Bytes} {a : α} (h : field offset r bytes = .ok (a, rest)) :
    rest.length ≤ bytes.length := by
  unfold field at h
  have hle := hr bytes
  split at h
  · rename_i heq
    rw [heq] at hle
    simp_all
  · simp at h

theorem length_lt_of_field_word {offset : Nat} {bytes rest : Bytes} {word : Nat}
    (h : field offset (Reader.unsigned 8) bytes = .ok (word, rest)) :
    rest.length < bytes.length := by
  simp only [field, Reader.unsigned, Reader.map, Reader.take] at h
  split at h
  · rename_i heq
    split at heq
    · simp at heq
    · simp only [Option.map_some, Prod.mk.injEq] at heq
      simp only [Except.ok.injEq, Prod.mk.injEq] at h
      rw [← h.2, ← heq.2, List.length_drop]
      omega
  · simp at h

theorem length_le_of_decodeOperands {offset : Nat} {fs : List OperandFormat} {bytes rest : Bytes}
    {operands : List DecodedOperand} (h : decodeOperands offset fs bytes = .ok (operands, rest)) :
    rest.length ≤ bytes.length := by
  induction fs generalizing bytes operands rest with
  | nil => simp_all [decodeOperands]
  | cons f fs ih =>
    simp only [decodeOperands, bind, Except.bind] at h
    split at h
    · simp at h
    · rename_i v hf
      split at h
      · simp at h
      · rename_i w hfs
        simp only [pure, Except.pure, Except.ok.injEq, Prod.mk.injEq] at h
        have h1 := length_le_of_field (shrinks_operandReader f) hf
        have h2 := ih hfs
        rw [← h.2]
        omega

theorem length_le_of_operandCount {offset : Nat} {layout : OperandLayout} {bytes rest : Bytes}
    {count : Nat} (h : operandCount offset layout bytes = .ok (count, rest)) :
    rest.length ≤ bytes.length := by
  simp only [operandCount, bind, Except.bind] at h
  split at h
  · split at h
    · simp at h
    · rename_i v hf
      have h1 := length_le_of_field (Reader.shrinks_unsigned 4) hf
      split at h
      · simp [throw, throwThe, MonadExceptOf.throw] at h
      · simp only [pure, Except.pure, Except.ok.injEq, Prod.mk.injEq] at h
        rw [← h.2]
        exact h1
  · simp only [pure, Except.pure, Except.ok.injEq, Prod.mk.injEq] at h
    exact Nat.le_of_eq (by rw [h.2])

theorem length_lt_of_decodeOne {offset : Nat} {bytes rest : Bytes} {inst : DecodedInstruction}
    (h : decodeOne offset bytes = .ok (inst, rest)) : rest.length < bytes.length := by
  simp only [decodeOne, bind, Except.bind] at h
  split at h
  · simp at h
  · rename_i v hword
    have h1 := length_lt_of_field_word hword
    split at h
    · simp [throw, throwThe, MonadExceptOf.throw] at h
    · split at h
      · simp [throw, throwThe, MonadExceptOf.throw] at h
      · simp only [pure, Except.pure] at h
        split at h
        · simp at h
        · rename_i w hcount
          have h2 := length_le_of_operandCount hcount
          split at h
          · simp [throw, throwThe, MonadExceptOf.throw] at h
          · split at h
            · simp at h
            · rename_i x hops
              have h3 := length_le_of_decodeOperands hops
              simp only [Except.ok.injEq, Prod.mk.injEq] at h
              rw [← h.2]
              omega

/-! ## Whole tapes -/

/-- The instructions from `offset` on, up to the first fault if there is one. -/
def decodeFrom (offset : Nat) (bytes : Bytes) : List DecodedInstruction × Option DecodeFault :=
  if bytes.isEmpty then ([], none)
  else match h : decodeOne offset bytes with
    | .error fault => ([], some fault)
    | .ok (inst, rest) =>
      have := length_lt_of_decodeOne h
      let (insts, fault) := decodeFrom (offset + (bytes.length - rest.length)) rest
      (inst :: insts, fault)
termination_by bytes.length

def decode (bytes : Bytes) : Except DecodeFault (List DecodedInstruction) :=
  match decodeFrom 0 bytes with
  | (insts, none) => .ok insts
  | (_, some fault) => .error fault

end Bytecode

end SecureTape
