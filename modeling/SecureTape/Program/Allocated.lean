import SecureTape.Allocation
import SecureTape.Layout
import SecureTape.Program.Scheduled

/-!
# Allocated tapes

When a tape is allocated it declares what it requires, its registers get physical numbers and its
jumps are resolved. All tapes are allocated before any is encoded, because a call names physical
registers of the callee.
-/

namespace SecureTape

namespace BuildM

def declaration? (r : Resource) (n : Count) : Option (Opcode × List Int) :=
  match r with
  | .data domain kind => some (.use, [domain.code, kind.code, n.declaration])
  | .input domain player => some (.useInp, [domain.code, player, n.declaration])
  | .edabit strict length => some (.useEdabit, [strict.toNat, length, n.declaration])
  | .rounds | .groups => none

/-- The instructions that declare required bit lengths. In a ring the length of the ring is
declared, as a negative number. -/
def bitLengthDeclarations (arithmetic : Arithmetic) (bits : BitLengths) :
    List (FieldDomain × Int) :=
  let base := match arithmetic with
    | .ring ringBits => -(ringBits : Int)
    | .prime _ => bits.base
  (if 0 < bits.base then [(.base, base)] else []) ++
    (if 0 < bits.extension then [(.extension, (bits.extension : Int))] else [])

def declarations (requirements : Tally) (arithmetic : Arithmetic) (bits : BitLengths)
    (regs : RegisterFile) : Except CompileError (List Instruction) := do
  let uses ← (requirements.entries.filterMap fun e => declaration? e.1 e.2).mapM
    fun (opcode, values) => Instruction.make opcode .base 1 (values.map .number) regs
  let lengths ← (bitLengthDeclarations arithmetic bits).mapM
    fun (domain, value) => Instruction.make .reqbl domain 1 [.number value] regs
  return uses ++ lengths

/-- Declare what a scheduled tape requires, assign its registers and resolve its jumps. -/
def allocateTape (id : TapeId) : BuildM Unit := do
  let root := ((← get).tapeAt id).root
  let requirements ← onTree (·.aggregate root)
  let options := (← get).options
  let t := (← get).tapeAt id
  let declared ← declarations requirements options.arithmetic t.bitLengths t.regs
  let t := t.modifyBlock (t.blocks.size - 1) (·.insertAtEnd declared)
  let (usage, regs) :=
    if options.reallocate then allocateRegisters t.regs options.registerLimit t.blocks
    else keepVirtual t.regs options.registerLimit
  modify fun p => p.modifyTape id fun _ => { t with regs }
  let usage ← liftM (n := BuildM) usage
  let (resolved, blocks) := Layout.resolve t.blocks.toList
  modify fun p => p.modifyTape id ({ · with blocks := blocks.toArray })
  liftM (n := BuildM) (resolved.mapError CompileError.construction)
  modify fun p => p.modifyTape id ({ · with state := .allocated usage requirements })

def ensureAllocated (id : TapeId) : BuildM Unit := do
  if ((← get).tapeAt id).state = .scheduled then
    allocateTape id

end BuildM

end SecureTape
