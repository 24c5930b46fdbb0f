import SecureTape.Bytecode.Listing
import SecureTape.Machine.Wire
import SecureTape.Register.File
import SecureTape.Requirement.Tally

/-!
# Instructions

An instruction has an opcode in the form of a domain, a vector size and operands that fit the
opcode's layout. `Instruction.make` is the only way to a new instruction and checks every operand,
so the passes that follow can rely on the layout.
-/

namespace SecureTape

inductive Operand where
  | reg (r : Reg)
  | callee (r : Reg)
  | number (value : Int)
  | text (value : String)
  deriving Repr, DecidableEq, Inhabited

namespace Operand

def reg? : Operand → Option Reg
  | .reg r => some r
  | _ => none

def number? : Operand → Option Int
  | .number value => some value
  | _ => none

instance : Coe Reg Operand := ⟨.reg⟩

end Operand

structure Instruction where
  opcode : Opcode
  domain : FieldDomain
  /-- The vector size, 1 for an opcode without a vector form. -/
  size : Nat
  operands : List Operand
  deriving Repr, DecidableEq, Inhabited

/-- What two instructions have to agree on to communicate together. -/
structure MergeKey where
  opcode : Opcode
  domain : FieldDomain
  size : Nat
  deriving Repr, DecidableEq, Inhabited

namespace Instruction

/-! ## Construction -/

def checkOwner (regs : RegisterFile) (r : Reg) : Except CompileError Unit :=
  if regs.owns r then .ok () else .error (.usage (.crossTapeRegister r))

def checkOperand (opcode : Opcode) (size : Nat) (regs : RegisterFile) (position : Nat)
    (format : OperandFormat) (operand : Operand) : Except CompileError Unit :=
  let invalid (fault : OperandFault) : CompileError :=
    .construction (.invalidOperand opcode position fault)
  match format, operand with
  | .reg cls _, .reg r => do
    checkOwner regs r
    if regs.classOf r ≠ cls then
      throw (invalid (.wrongClass cls (regs.classOf r)))
    if regs.sizeOf r ≠ size then
      throw (invalid (.wrongSize size (regs.sizeOf r)))
  | .anyReg _, .reg r => checkOwner regs r
  | .callee, .callee _ => .ok ()
  | .imm, .number value | .int, .number value | .long, .number value | .player, .number value =>
    (checkNumber format value).mapError invalid
  | .text, .text value | .longText, .text value => (checkText format value).mapError invalid
  | expected, _ => .error (invalid (.wrongKind expected))

def checkOperands (opcode : Opcode) (size : Nat) (regs : RegisterFile) :
    Nat → List OperandFormat → List Operand → Except CompileError Unit
  | position, f :: fs, o :: os => do
    checkOperand opcode size regs position f o
    checkOperands opcode size regs (position + 1) fs os
  | _, _, _ => .ok ()

/-- An instruction with checked operands. The size has to fit the code word; that of an opcode
without a vector form is 1. -/
def make (opcode : Opcode) (domain : FieldDomain) (size : Nat) (operands : List Operand)
    (regs : RegisterFile) : Except CompileError Instruction := do
  if domain = .extension ∧ ¬ opcode.hasExtension then
    throw (.construction (.noExtensionForm opcode))
  if size = 0 then
    throw (.construction .emptyVector)
  if Wire.maxVectorSize < size then
    throw (.construction (.vectorTooLarge size Wire.maxVectorSize))
  match opcode.layout.formats? operands.length with
  | none => throw (.construction (.operandCount opcode operands.length))
  | some formats =>
    let size := if opcode.isVector then size else 1
    checkOperands opcode size regs 0 (formats.map (·.inDomain domain)) operands
    return { opcode, domain, size, operands }

/-! ## What an instruction does -/

def formats (i : Instruction) : List OperandFormat :=
  ((i.opcode.layout.formats? i.operands.length).getD []).map (·.inDomain i.domain)

def has (i : Instruction) (f : OpFlag) : Bool := i.opcode.has f

def communicates (i : Instruction) : Bool := i.has .communicates

def hasSideEffect (i : Instruction) : Bool :=
  i.has .keep || i.has .io || i.has .barrier || i.has .jump || i.has .memWrite

def mergeKey (i : Instruction) : MergeKey := ⟨i.opcode, i.domain, i.size⟩

/-- The number of inputs of a tape call; the groups after them are outputs. -/
def callInputs (i : Instruction) : Int :=
  ((i.operands[1]?).bind Operand.number?).getD 0

/-- How the operand at a position is accessed. The registers of a tape call are read in its input
groups and written in its output groups. -/
def accessAt (i : Instruction) (position : Nat) : OperandFormat → Option Access
  | .reg _ a => some a
  | .anyReg a =>
    if i.opcode = .callTape then
      let layout := i.opcode.layout
      let group := (position - layout.headLength) / layout.groupLength
      if a.writes ∨ i.callInputs ≤ group then some .write else some .read
    else some a
  | _ => none

def accesses (i : Instruction) : List (Reg × Access) :=
  ((i.formats.zip i.operands).mapIdx fun position (format, operand) =>
    match operand, i.accessAt position format with
    | .reg r, some a => some (r, a)
    | _, _ => none).filterMap id

def reads (i : Instruction) : List Reg :=
  (i.accesses.filter (·.2.reads)).map (·.1)

def writes (i : Instruction) : List Reg :=
  (i.accesses.filter (·.2.writes)).map (·.1)

/-- Cut a list into pieces of length `n`, at least 1; the last may be shorter. -/
def chunks {α : Type} (n : Nat) : List α → List (List α)
  | [] => []
  | x :: xs => (x :: xs.take (n - 1)) :: chunks n (xs.drop (n - 1))
termination_by xs => xs.length
decreasing_by simp only [List.length_drop, List.length_cons]; omega

/-- The repeated groups of operands; an opcode of fixed layout has none. -/
def groups (i : Instruction) : List (List Operand) :=
  match i.opcode.layout with
  | .fixed _ => []
  | .grouped head group => chunks group.length (i.operands.drop head.length)

def head (i : Instruction) : List Operand :=
  i.operands.take i.opcode.layout.headLength

def absorb (i other : Instruction) : Instruction :=
  { i with operands := i.operands ++ other.operands.drop other.opcode.layout.headLength }

def usage (i : Instruction) : List (Resource × Nat) :=
  match i.opcode with
  | .triple => [(.data i.domain .triple, i.size)]
  | .square => [(.data i.domain .square, i.size)]
  | .bit => [(.data i.domain .bit, i.size)]
  | .inv => [(.data i.domain .inverse, i.size)]
  | .muls => [(.data i.domain .triple, i.size * i.groups.length)]
  | .rawInput => i.groups.filterMap fun group =>
    (group.head?.bind Operand.number?).map fun player =>
      (.input i.domain (toUnsigned 32 player), i.size)
  | _ => []

/-! ## Jumps -/

def jumpOperand? (i : Instruction) : Option Nat :=
  match i.opcode with
  | .jmp => some 0
  | .jmpnz | .jmpeqz => some 1
  | _ => none

def withJumpOffset (i : Instruction) (offset : Int) : Instruction :=
  match i.jumpOperand? with
  | some position => { i with operands := i.operands.set position (.number offset) }
  | none => i

/-! ## Bytes and text -/

def operandBytes (resolve : Reg → Nat) (format : OperandFormat) : Operand → Bytes
  | .reg r | .callee r => Wire.word32 (resolve r)
  | .number value => if format = .long then Wire.signed64 value else Wire.signed32 value
  | .text value => if format = .longText then Wire.longText value else Wire.textField value

def formCode (i : Instruction) : Nat :=
  i.opcode.code + if i.domain = .extension then Opcode.extensionOffset else 0

def encode (i : Instruction) (resolve : Reg → Nat) : Bytes :=
  bigEndian 8 (Wire.codeWord i.formCode (if i.opcode.isVector then i.size else 0)) ++
    (if i.opcode.layout.isGrouped then Wire.word32 i.operands.length else []) ++
    (i.formats.zip i.operands).flatMap fun (format, operand) => operandBytes resolve format operand

def operandText (regs : RegisterFile) : Operand → String
  | .reg r => regs.label r
  | .callee r => s!"tape{r.tape}:{r.id}"
  | .number value => toString value
  | .text value => Text.quoted value

def text (i : Instruction) (regs : RegisterFile) : String :=
  instructionText i.opcode i.domain i.size (i.operands.map (operandText regs))

end Instruction

end SecureTape
