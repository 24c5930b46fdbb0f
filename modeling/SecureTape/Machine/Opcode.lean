import SecureTape.Machine.Operand

/-!
# The instruction set

One table gives the mnemonic, code, operand layout and flags of every opcode. The vector form of
an instruction carries its size in the code word, and the extension form of an opcode has the code
of the base form plus 256.

Main statements: codes and mnemonics are distinct, and looking up a code or a form finds the
opcode it belongs to.
-/

namespace SecureTape

/-- What the scheduler and the allocators have to know about an opcode. -/
inductive OpFlag where
  /-- Never removed as dead. -/
  | keep
  /-- Seen from outside, and ordered among all that is. -/
  | io
  /-- Costs a round of communication, which alike instructions can share. -/
  | communicates
  /-- Nothing moves across it. -/
  | barrier
  /-- Ends a block. -/
  | jump
  | vector
  | extension
  | memRead
  | memWrite
  deriving Repr, DecidableEq, Inhabited

namespace OpFlag

def all : List OpFlag :=
  [.keep, .io, .communicates, .barrier, .jump, .vector, .extension, .memRead, .memWrite]

def bit : OpFlag → Nat
  | .keep => 0
  | .io => 1
  | .communicates => 2
  | .barrier => 3
  | .jump => 4
  | .vector => 5
  | .extension => 6
  | .memRead => 7
  | .memWrite => 8

def name : OpFlag → String
  | .keep => "keep"
  | .io => "io"
  | .communicates => "communicates"
  | .barrier => "barrier"
  | .jump => "jump"
  | .vector => "vector"
  | .extension => "extension"
  | .memRead => "mem_read"
  | .memWrite => "mem_write"

end OpFlag

/-- A set of flags; order and repetition carry no meaning. -/
abbrev OpFlags := List OpFlag

namespace OpFlags

def sorted (fs : OpFlags) : List OpFlag :=
  OpFlag.all.filter (· ∈ fs)

def word (fs : OpFlags) : Nat :=
  ((sorted fs).map fun f => Nat.pow 2 f.bit).foldl (· + ·) 0

def union (fs gs : OpFlags) : OpFlags := fs ++ gs

def contains (fs gs : OpFlags) : Bool :=
  gs.all (· ∈ fs)

end OpFlags

inductive Opcode where
  | ldi | ldsi | ldmc | ldms | stmc | stms | ldmci | ldmsi | stmci | stmsi | movc | movs
  | ldtn | ldarg | reqbl | starg | use | useInp | runTape | joinTape | crash | usePrep
  | addc | adds | addm | addci | addsi | subc | subs | subml | submr
  | mulc | mulm | mulci | mulsi
  | triple | bit | square | inv
  | jmp | jmpnz | jmpeqz
  | ltc | eqc | ldint | addint | subint | mulint
  | reveal | muls
  | printReg | printText
  | convint | convmodp | ldmint | stmint | ldminti | stminti | movint
  | useEdabit | callTape | rawInput
  deriving Repr, DecidableEq, Inhabited

structure OpcodeInfo where
  name : String
  code : Nat
  layout : OperandLayout
  flags : OpFlags
  deriving Repr, DecidableEq

namespace Opcode

def all : List Opcode := [
  .ldi, .ldsi, .ldmc, .ldms, .stmc, .stms, .ldmci, .ldmsi, .stmci, .stmsi, .movc, .movs,
  .ldtn, .ldarg, .reqbl, .starg, .use, .useInp, .runTape, .joinTape, .crash, .usePrep,
  .addc, .adds, .addm, .addci, .addsi, .subc, .subs, .subml, .submr,
  .mulc, .mulm, .mulci, .mulsi,
  .triple, .bit, .square, .inv,
  .jmp, .jmpnz, .jmpeqz,
  .ltc, .eqc, .ldint, .addint, .subint, .mulint,
  .reveal, .muls,
  .printReg, .printText,
  .convint, .convmodp, .ldmint, .stmint, .ldminti, .stminti, .movint,
  .useEdabit, .callTape, .rawInput]

/-- Registers of the base classes and of integers, read or written. -/
def c : OperandFormat := .reg .clear .read
@[inherit_doc c] def cw : OperandFormat := .reg .clear .write
@[inherit_doc c] def s : OperandFormat := .reg .secret .read
@[inherit_doc c] def sw : OperandFormat := .reg .secret .write
@[inherit_doc c] def ci : OperandFormat := .reg .int .read
@[inherit_doc c] def ciw : OperandFormat := .reg .int .write

def dataFlags : OpFlags := [.vector, .extension]

def loadFlags : OpFlags := [.vector, .extension, .memRead]

def storeFlags : OpFlags := [.vector, .extension, .memWrite, .keep]

def outputFlags : OpFlags := [.keep, .io]

def threadFlags : OpFlags := [.keep, .barrier]

def jumpFlags : OpFlags := [.keep, .jump]

def info : Opcode → OpcodeInfo
  | .ldi => ⟨"ldi", 0x01, .fixed [cw, .imm], dataFlags⟩
  | .ldsi => ⟨"ldsi", 0x02, .fixed [sw, .imm], dataFlags⟩
  | .ldmc => ⟨"ldmc", 0x03, .fixed [cw, .long], loadFlags⟩
  | .ldms => ⟨"ldms", 0x04, .fixed [sw, .long], loadFlags⟩
  | .stmc => ⟨"stmc", 0x05, .fixed [c, .long], storeFlags⟩
  | .stms => ⟨"stms", 0x06, .fixed [s, .long], storeFlags⟩
  | .ldmci => ⟨"ldmci", 0x07, .fixed [cw, ci], loadFlags⟩
  | .ldmsi => ⟨"ldmsi", 0x08, .fixed [sw, ci], loadFlags⟩
  | .stmci => ⟨"stmci", 0x09, .fixed [c, ci], storeFlags⟩
  | .stmsi => ⟨"stmsi", 0x0a, .fixed [s, ci], storeFlags⟩
  | .movc => ⟨"movc", 0x0b, .fixed [cw, c], dataFlags⟩
  | .movs => ⟨"movs", 0x0c, .fixed [sw, s], dataFlags⟩
  | .ldtn => ⟨"ldtn", 0x10, .fixed [ciw], []⟩
  | .ldarg => ⟨"ldarg", 0x11, .fixed [ciw], []⟩
  | .reqbl => ⟨"reqbl", 0x12, .fixed [.int], [.keep, .io, .extension]⟩
  | .starg => ⟨"starg", 0x13, .fixed [ci], outputFlags⟩
  | .use => ⟨"use", 0x17, .fixed [.int, .int, .long], outputFlags⟩
  | .useInp => ⟨"use_inp", 0x18, .fixed [.int, .int, .long], outputFlags⟩
  | .runTape => ⟨"run_tape", 0x19, .grouped [] [.int, .int, .int], threadFlags⟩
  | .joinTape => ⟨"join_tape", 0x1a, .fixed [.int], threadFlags⟩
  | .crash => ⟨"crash", 0x1b, .fixed [], outputFlags⟩
  | .usePrep => ⟨"use_prep", 0x1c, .fixed [.text, .long], outputFlags⟩
  | .addc => ⟨"addc", 0x20, .fixed [cw, c, c], dataFlags⟩
  | .adds => ⟨"adds", 0x21, .fixed [sw, s, s], dataFlags⟩
  | .addm => ⟨"addm", 0x22, .fixed [sw, s, c], dataFlags⟩
  | .addci => ⟨"addci", 0x23, .fixed [cw, c, .imm], dataFlags⟩
  | .addsi => ⟨"addsi", 0x24, .fixed [sw, s, .imm], dataFlags⟩
  | .subc => ⟨"subc", 0x25, .fixed [cw, c, c], dataFlags⟩
  | .subs => ⟨"subs", 0x26, .fixed [sw, s, s], dataFlags⟩
  | .subml => ⟨"subml", 0x27, .fixed [sw, s, c], dataFlags⟩
  | .submr => ⟨"submr", 0x28, .fixed [sw, c, s], dataFlags⟩
  | .mulc => ⟨"mulc", 0x30, .fixed [cw, c, c], dataFlags⟩
  | .mulm => ⟨"mulm", 0x31, .fixed [sw, s, c], dataFlags⟩
  | .mulci => ⟨"mulci", 0x32, .fixed [cw, c, .imm], dataFlags⟩
  | .mulsi => ⟨"mulsi", 0x33, .fixed [sw, s, .imm], dataFlags⟩
  | .triple => ⟨"triple", 0x50, .fixed [sw, sw, sw], dataFlags⟩
  | .bit => ⟨"bit", 0x51, .fixed [sw], dataFlags⟩
  | .square => ⟨"square", 0x52, .fixed [sw, sw], dataFlags⟩
  | .inv => ⟨"inv", 0x53, .fixed [sw, sw], dataFlags⟩
  | .jmp => ⟨"jmp", 0x90, .fixed [.int], jumpFlags⟩
  | .jmpnz => ⟨"jmpnz", 0x91, .fixed [ci, .int], jumpFlags⟩
  | .jmpeqz => ⟨"jmpeqz", 0x92, .fixed [ci, .int], jumpFlags⟩
  | .ltc => ⟨"ltc", 0x95, .fixed [ciw, ci, ci], [.vector]⟩
  | .eqc => ⟨"eqc", 0x97, .fixed [ciw, ci, ci], [.vector]⟩
  | .ldint => ⟨"ldint", 0x9a, .fixed [ciw, .imm], [.vector]⟩
  | .addint => ⟨"addint", 0x9b, .fixed [ciw, ci, ci], [.vector]⟩
  | .subint => ⟨"subint", 0x9c, .fixed [ciw, ci, ci], [.vector]⟩
  | .mulint => ⟨"mulint", 0x9d, .fixed [ciw, ci, ci], [.vector]⟩
  | .reveal => ⟨"open", 0xa5, .grouped [.int] [cw, s], [.vector, .extension, .communicates]⟩
  | .muls => ⟨"muls", 0xa6, .grouped [] [sw, s, s], [.vector, .extension, .communicates]⟩
  | .printReg => ⟨"print_reg_plain", 0xb3, .fixed [c], [.keep, .io, .vector, .extension]⟩
  | .printText => ⟨"print_char16", 0xb5, .fixed [.text], outputFlags⟩
  | .convint => ⟨"convint", 0xc0, .fixed [cw, ci], dataFlags⟩
  | .convmodp => ⟨"convmodp", 0xc1, .fixed [ciw, c, .int], [.vector]⟩
  | .ldmint => ⟨"ldmint", 0xca, .fixed [ciw, .long], [.vector, .memRead]⟩
  | .stmint => ⟨"stmint", 0xcb, .fixed [ci, .long], [.vector, .memWrite, .keep]⟩
  | .ldminti => ⟨"ldminti", 0xcc, .fixed [ciw, ci], [.vector, .memRead]⟩
  | .stminti => ⟨"stminti", 0xcd, .fixed [ci, ci], [.vector, .memWrite, .keep]⟩
  | .movint => ⟨"movint", 0xd0, .fixed [ciw, ci], [.vector]⟩
  | .useEdabit => ⟨"use_edabit", 0xe5, .fixed [.int, .int, .long], outputFlags⟩
  | .callTape =>
    ⟨"call_tape", 0xec, .grouped [.int, .int] [.int, .int, .callee, .anyReg .read], threadFlags⟩
  | .rawInput =>
    ⟨"rawinput", 0xf4, .grouped [] [.player, sw], [.vector, .extension, .keep, .communicates]⟩

def name (op : Opcode) : String := op.info.name

def code (op : Opcode) : Nat := op.info.code

def layout (op : Opcode) : OperandLayout := op.info.layout

def flags (op : Opcode) : OpFlags := op.info.flags

def has (op : Opcode) (f : OpFlag) : Bool := f ∈ op.flags

def isVector (op : Opcode) : Bool := op.has .vector

def hasExtension (op : Opcode) : Bool := op.has .extension

def isJump (op : Opcode) : Bool := op.has .jump

def extensionOffset : Nat := 0x100

def codeIn? (op : Opcode) : FieldDomain → Option Nat
  | .base => some op.code
  | .extension => if op.hasExtension then some (op.code + extensionOffset) else none

def ofCode? (code : Nat) : Option Opcode :=
  all.find? fun op => op.code = code

def ofName? (name : String) : Option Opcode :=
  all.find? fun op => op.name == name

def ofForm? (code : Nat) : Option (Opcode × FieldDomain) :=
  if code < extensionOffset then (ofCode? code).map (·, .base)
  else match ofCode? (code - extensionOffset) with
    | some op => if op.hasExtension then some (op, .extension) else none
    | none => none

def memoryClass? : Opcode → Option RegisterClass
  | .ldmc | .stmc | .ldmci | .stmci => some .clear
  | .ldms | .stms | .ldmsi | .stmsi => some .secret
  | .ldmint | .stmint | .ldminti | .stminti => some .int
  | _ => none

theorem mem_all (op : Opcode) : op ∈ all := by
  cases op <;> decide

theorem code_lt (op : Opcode) : op.code < extensionOffset := by
  cases op <;> decide

@[simp] theorem ofCode?_code (op : Opcode) : ofCode? op.code = some op := by
  cases op <;> rfl

theorem ofForm?_of_codeIn? {op : Opcode} {d : FieldDomain} {n : Nat} (h : op.codeIn? d = some n) :
    ofForm? n = some (op, d) := by
  cases d with
  | base =>
    simp only [codeIn?, Option.some.injEq] at h
    subst h
    simp [ofForm?, code_lt]
  | extension =>
    simp only [codeIn?] at h
    split at h
    · simp only [Option.some.injEq] at h
      subst h
      rename_i hx
      simp [ofForm?, hx]
    · simp at h

end Opcode

end SecureTape
