import SecureTape.Program.Basic

/-!
# Emitting instructions

Actions that make registers and append instructions to the active block. Registers of field values
and instructions follow the current domain: in the extension domain an instruction takes its
extension form if it has one.
-/

namespace SecureTape.BuildM

/-! ## Registers -/

/-- A new base register of the current tape; field classes follow the current domain. -/
def createRegister (cls : RegisterClass) (size : Nat) : BuildM Reg := do
  let cls := cls.inDomain (← get).domain
  let _ ← building
  onRegisters (← get).current (RegisterM.create cls size)

def newRegister (cls : RegisterClass) : BuildM Reg := do
  createRegister cls (← get).vectorSize

def newVector (cls : RegisterClass) (size : Nat) : BuildM Reg := do
  checkVectorSize size
  createRegister cls size

def newInteger : BuildM Reg := do
  let _ ← building
  onRegisters (← get).current (RegisterM.create .int 1)

def view (r : Reg) (start size : Nat) : BuildM Reg := do
  let _ ← registerInfo r
  let _ ← building
  onRegisters (← get).current (RegisterM.viewOf r start size)

def link (a b : Reg) : BuildM Unit := do
  if ¬ (← get).options.reallocate then
    misuse .linkWithoutReallocation
  let _ ← registerInfo a
  let _ ← registerInfo b
  let t ← building
  let regs ← t.regs.link a b
  modifyCurrent ({ · with regs })

/-! ## Instructions -/

/-- Append an instruction. It takes the size of its first register, or else the current one. -/
def emit (opcode : Opcode) (operands : List Operand) : BuildM Unit := do
  let p ← get
  let domain := if p.domain = .extension ∧ opcode.hasExtension then .extension else .base
  let size ← match operands.findSome? Operand.reg? with
    | some r => (·.2) <$> registerInfo r
    | none => pure p.vectorSize
  pushInstruction opcode domain size operands

def emitRegs (opcode : Opcode) (regs : List Reg) : BuildM Unit :=
  emit opcode (regs.map .reg)

def wrap64 (n : Nat) : Int := toSigned 64 (n % Nat.pow 2 64)

def loadClear (dest : Reg) (value : Int) : BuildM Unit := emit .ldi [dest, .number value]

def loadSecret (dest : Reg) (value : Int) : BuildM Unit := emit .ldsi [dest, .number value]

def loadInt (dest : Reg) (value : Int) : BuildM Unit := emit .ldint [dest, .number value]

def threadNumber : BuildM Reg := do
  let r ← newInteger
  emitRegs .ldtn [r]
  return r

def threadArgument : BuildM Reg := do
  let r ← newInteger
  pushInstruction .ldarg .base 1 [r]
  return r

/-- The opcodes of an operation on two values: on integers, on two secrets, on a secret and a
public value, on a public value and a secret, and on two public values. -/
structure BinaryForms where
  ints : Opcode
  secrets : Opcode
  secretClear : Opcode
  clearSecret : Opcode
  clears : Opcode
  /-- The secret operand comes first also where it was the second. -/
  secretFirst : Bool

def binary (forms : BinaryForms) (dest a b : Reg) : BuildM Unit := do
  let x ← classOf a
  let y ← classOf b
  if x = .int then emitRegs forms.ints [dest, a, b]
  else if x.isSecret then
    emitRegs (if y.isSecret then forms.secrets else forms.secretClear) [dest, a, b]
  else if y.isSecret then
    emitRegs forms.clearSecret (if forms.secretFirst then [dest, b, a] else [dest, a, b])
  else emitRegs forms.clears [dest, a, b]

def add : Reg → Reg → Reg → BuildM Unit := binary ⟨.addint, .adds, .addm, .addm, .addc, true⟩

def sub : Reg → Reg → Reg → BuildM Unit := binary ⟨.subint, .subs, .subml, .submr, .subc, false⟩

/-- A product; of two secrets it takes a triple and a round. -/
def mul : Reg → Reg → Reg → BuildM Unit := binary ⟨.mulint, .muls, .mulm, .mulm, .mulc, true⟩

def addImmediate (dest a : Reg) (value : Int) : BuildM Unit := do
  emit (if (← classOf a).isSecret then .addsi else .addci) [dest, a, .number value]

def mulImmediate (dest a : Reg) (value : Int) : BuildM Unit := do
  emit (if (← classOf a).isSecret then .mulsi else .mulci) [dest, a, .number value]

def addInt (dest a b : Reg) : BuildM Unit := emitRegs .addint [dest, a, b]

def subInt (dest a b : Reg) : BuildM Unit := emitRegs .subint [dest, a, b]

def mulInt (dest a b : Reg) : BuildM Unit := emitRegs .mulint [dest, a, b]

def lessThan (dest a b : Reg) : BuildM Unit := emitRegs .ltc [dest, a, b]

def equal (dest a b : Reg) : BuildM Unit := emitRegs .eqc [dest, a, b]

def reveal (dest src : Reg) : BuildM Unit := emit .reveal [.number 0, dest, src]

def triple (a b ab : Reg) : BuildM Unit := emitRegs .triple [a, b, ab]

def randomBit (dest : Reg) : BuildM Unit := emitRegs .bit [dest]

def square (a aa : Reg) : BuildM Unit := emitRegs .square [a, aa]

def inverse (a inv : Reg) : BuildM Unit := emitRegs .inv [a, inv]

def input (dest : Reg) (player : Nat) : BuildM Unit :=
  emit .rawInput [.number player, dest]

def convertInt (dest src : Reg) : BuildM Unit := emitRegs .convint [dest, src]

def convertField (dest src : Reg) (bits : Nat) : BuildM Unit :=
  emit .convmodp [dest, src, .number bits]

/-- Print a public value; an integer is converted first. -/
def printRegister (r : Reg) : BuildM Unit := do
  let (cls, size) ← registerInfo r
  if cls.isSecret then
    reject (.invalidOperand .printReg 0 (.wrongClass cls cls))
  if cls = .int then
    let field ← newVector .clear size
    convertInt field r
    emitRegs .printReg [field]
  else
    emitRegs .printReg [r]

def printText (text : String) : BuildM Unit := emit .printText [.text text]

def crash : BuildM Unit := emit .crash []

def byClass {α : Type} (cls : RegisterClass) (int secret clear : α) : α :=
  if cls = .int then int else if cls.isSecret then secret else clear

def move (dest src : Reg) : BuildM Unit := do
  emitRegs (byClass (← classOf src) .movint .movs .movc) [dest, src]

def loadMemory (dest : Reg) (addr : Nat) : BuildM Unit := do
  emit (byClass (← classOf dest) .ldmint .ldms .ldmc) [dest, .number (wrap64 addr)]

def storeMemory (src : Reg) (addr : Nat) : BuildM Unit := do
  emit (byClass (← classOf src) .stmint .stms .stmc) [src, .number (wrap64 addr)]

def loadMemoryAt (dest addr : Reg) : BuildM Unit := do
  emitRegs (byClass (← classOf dest) .ldminti .ldmsi .ldmci) [dest, addr]

def storeMemoryAt (src addr : Reg) : BuildM Unit := do
  emitRegs (byClass (← classOf src) .stminti .stmsi .stmci) [src, addr]

end SecureTape.BuildM
