import SecureTape.Program.Batch
import SecureTape.Program.Memory

/-!
# Scheduled tapes

When a tape is scheduled its blocks are closed and optimized, its macro calls are expanded, and
what its blocks use is charged to the requirement tree. All tapes that a tape runs or calls are
scheduled before it is allocated, because it declares what they require as well.
-/

namespace SecureTape

namespace BuildM

def checkScopes (id : TapeId) : BuildM Unit := do
  let t := (← get).tapeAt id
  match t.scopes.head? with
  | some scope => reject (.unclosedScope t.name scope.kind)
  | none => pure ()

/-! ## Memory usage -/

def touchLastCell (cls : RegisterClass) (top : Nat) : BuildM Unit := do
  let main := Program.mainTape
  let r ← onRegisters main (RegisterM.create cls 1)
  modify fun p => p.modifyTape main fun t => { t with regs := t.regs.keep r }
  let t := (← get).tapeAt main
  let opcode := byClass cls .ldmint .ldms .ldmc
  let i ← Instruction.make opcode (cls.domain?.getD .base) 1
    [.reg r, .number (wrap64 (top - 1))] t.regs
  let t ← t.push (.inst i)
  modify fun p => p.modifyTape main fun _ => t

/-- Load the last cell of every heap in use at the end of the main tape, so that the runtime knows
how much memory to provide. -/
def declareMemory : BuildM Unit := do
  let top := (← get).heap.top
  let used := RegisterClass.all.filter fun cls => top.get cls ≠ 0
  if used.isEmpty then
    return
  modify fun p => p.modifyTape Program.mainTape fun t =>
    (t.startBlock "memory-usage" none none t.root).2
  used.forM fun cls => touchLastCell cls (top.get cls)

/-- Prepare the main tape for scheduling: its scopes are closed, and it declares the memory. -/
def closeMain : BuildM Unit := do
  checkScopes Program.mainTape
  if ((← get).tapeAt Program.mainTape).isBuilding then
    declareMemory

/-! ## Blocks -/

/-- The jump for the exit of a block; its offset is filled in later. -/
def exitJump (regs : RegisterFile) : ExitKind → Except CompileError Instruction
  | .always => Instruction.make .jmp .base 1 [.number 0] regs
  | .ifNonZero cond => Instruction.make .jmpnz .base 1 [.reg cond, .number 0] regs
  | .ifZero cond => Instruction.make .jmpeqz .base 1 [.reg cond, .number 0] regs

def blockUsage (ops : List Op) (stats : MergeStats) : Tally :=
  let used := (ops.filterMap Op.inst?).flatMap Instruction.usage
  let tally := used.foldl (fun t u => t.increment u.1 (.finite u.2)) Tally.empty
  (tally.increment .rounds (.finite stats.rounds)).increment .groups (.finite stats.groups)

def scheduleBlock (id : TapeId) (options : MergeOptions) (index : BlockId) : BuildM Unit := do
  let t := (← get).tapeAt id
  let block := t.block index
  let liveOut := (block.exit.bind (·.kind.condition?)).toList.map t.regs.slotKey
  modify fun p => p.modifyTape id fun t => t.modifyBlock index ({ · with ops := [] })
  let (ops, stats) := optimize t.regs options liveOut block.ops
  let (ops, stats) ←
    if ops.all (·.inst?.isSome) then pure (ops, stats)
    else do
      let expanded ← expandCalls id block.node ops
      pure (optimize ((← get).tapeAt id).regs options liveOut expanded)
  let ops ← match block.exit with
    | none => pure ops
    | some exit => do
      let jump ← exitJump ((← get).tapeAt id).regs exit.kind
      pure (ops ++ [.inst jump])
  let usage := blockUsage ops stats
  modify fun p => p.modifyTape id fun t => t.modifyBlock index fun b =>
    { b with ops, rounds := stats.rounds, groups := stats.groups, usage }
  onTree fun tree => ((), tree.addUsage block.node usage)

/-- Close a tape: its prologue is put in front, and the registers that its blocks inherit are
noted. -/
def closeTape (t : Tape) : Tape :=
  let t := t.modifyBlock 0 fun b => { b with ops := t.prologue ++ b.ops }
  let t := { t with prologue := [] }.closeAll
  let (blocks, regs) := inheritAll t.regs t.blocks.toList
  { t with blocks := blocks.toArray, regs, state := .scheduled }

def scheduleTape (id : TapeId) : BuildM Unit := do
  if ((← get).tapeAt id).isBuilding then
    checkScopes id
    modify fun p => p.modifyTape id closeTape
    let p ← get
    let options : MergeOptions :=
      { mergeRounds := p.options.mergeRounds, fullDeadCode := p.options.fullDeadCode }
    (List.range (p.tapeAt id).blocks.size).forM (scheduleBlock id options)

/-! ## Tapes -/

/-- Schedule all tapes. Tapes for batches of macro calls are added meanwhile; they hold no macro
calls themselves. -/
def scheduleAll : BuildM Unit := do
  let before := (← get).tapes.size
  (List.range before).forM scheduleTape
  let added := (← get).tapes.size - before
  (List.range' before added).forM scheduleTape

/-- A bound on the tape calls in a program: those that are noted, and the batches that may become
calls. -/
def callBound (p : Program) : Nat :=
  (p.tapes.toList.map fun t =>
    t.callees.length + (t.blocks.toList.flatMap (·.ops)).length + t.prologue.length).foldl (· + ·) 0

/-- Schedule the tapes of a stack and all tapes they run or call, at most `fuel` of them; the answer
is the tapes in the order in which they were met. -/
def scheduleReachable : Nat → List TapeId → List TapeId → BuildM (List TapeId)
  | 0, met, _ => return met
  | _, met, [] => return met
  | fuel + 1, met, id :: stack => do
    if id ∈ met then
      scheduleReachable fuel met stack
    else
      scheduleTape id
      let callees := ((← get).tapeAt id).callees
      scheduleReachable fuel (met ++ [id]) (callees.reverse ++ stack)

/-- Schedule a tape and all tapes that it runs or calls, directly or through others. -/
def scheduleClosure (id : TapeId) : BuildM (List TapeId) := do
  scheduleReachable (callBound (← get) + 1) [] [id]

end BuildM

end SecureTape
