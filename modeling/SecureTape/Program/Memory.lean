import SecureTape.Program.Emit

/-!
# Memory and requirements of a program

Memory is taken from the heaps for the allocation pool of the active block. A tape that several
threads run at the same time takes a copy for each of them, and finds the copy of the running
thread through an address that is computed from the thread's argument.
-/

namespace SecureTape.BuildM

def maxWord : Nat := Nat.pow 2 64 - 1

def onHeap {α : Type} (act : HeapM α) : BuildM α := do
  let (answer, heap) := act.run (← get).heap
  modify ({ · with heap })
  match answer with
  | .ok a => return a
  | .error fault => throw (.ofHeapFault fault)

/-- Take `size` cells of memory, for every thread of the current tape; the answer is their
address. -/
def malloc (cls : RegisterClass) (size : Nat) : BuildM Nat := do
  let t ← building
  let total ←
    if t.singular then pure size
    else match t.threads with
      | some threads => pure (min (size * threads) maxWord)
      | none => misuse .noRunningThreads
  onHeap (HeapM.allocate cls total t.activeBlock.pool)

/-- Give memory back. What other tapes than the main tape give back is free after the next
flush. -/
def free (cls : RegisterClass) (addr : Nat) : BuildM Unit := do
  let pool ← activePool
  let now := (← get).current = Program.mainTape
  onHeap (HeapM.dealloc cls addr pool now)

def flushMemory : BuildM Unit :=
  modify fun p => { p with heap := p.heap.flush }

def pushPrologue (opcode : Opcode) (operands : List Operand) : BuildM Unit := do
  let i ← Instruction.make opcode .base 1 operands (← get).currentTape.regs
  modifyCurrent fun t => { t with prologue := t.prologue ++ [.inst i] }

/-- A register with `base + stride * argument` for the argument of the running thread. It is
computed once, in front of the tape, and kept for the whole tape. -/
def threadAddress (base stride : Nat) : BuildM Reg := do
  let t ← building
  match t.threadAddresses.lookup (base, stride) with
  | some r => return r
  | none =>
    let argument ← newInteger
    let step ← newInteger
    let offset ← newInteger
    let start ← newInteger
    let addr ← newInteger
    pushPrologue .ldarg [argument]
    pushPrologue .ldint [step, .number (wrap64 stride)]
    pushPrologue .mulint [offset, argument, step]
    pushPrologue .ldint [start, .number (wrap64 base)]
    pushPrologue .addint [addr, start, offset]
    modifyCurrent fun t => { t with
      regs := t.regs.markExported addr
      threadAddresses := ((base, stride), addr) :: t.threadAddresses }
    return addr

def incrementRequirement (r : Resource) (n : Count) : BuildM Unit := do
  let node ← activeNode
  onTree fun tree => ((), tree.increment node r n)

/-- Require comparisons on values of `bits` bits. In the base domain the lengths of a tape add up
to their maximum and have to fit the prime; in the extension domain there is only one. -/
def requireBitLength (bits : Nat) (domain : FieldDomain) : BuildM Unit := do
  let arithmetic := (← get).options.arithmetic
  let t ← building
  let lengths := t.bitLengths
  match domain with
  | .base =>
    match arithmetic with
    | .prime available =>
      if available ≤ bits + 1 then
        reject (.bitLengthTooLarge bits available)
    | .ring _ => pure ()
    modifyCurrent ({ · with bitLengths := { lengths with base := max lengths.base (bits + 1) } })
  | .extension =>
    if lengths.extension ≠ 0 ∧ lengths.extension ≠ bits then
      reject (.bitLengthChanged lengths.extension bits)
    modifyCurrent ({ · with bitLengths := { lengths with extension := bits } })

/-- What a tape requires, all that it runs and calls included. -/
def requirements (id : TapeId) : BuildM Tally := do
  let t ← tape id
  onTree (·.aggregate t.root)

end SecureTape.BuildM
