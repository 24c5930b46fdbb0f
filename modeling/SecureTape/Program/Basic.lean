import SecureTape.Heap.Basic
import SecureTape.Machine.Wire
import SecureTape.Tape

/-!
# Programs under construction

A program owns its tapes and what they share: the requirement tree, the heaps, the thread numbers
and the macro templates. It is built by actions, each of which may fail. What an action did before
it failed stays done.
-/

namespace SecureTape

/-- The numbers of threads; 0 is the thread of the main tape. -/
structure ThreadTable where
  /-- The least number that was never used. -/
  next : Nat := 1
  /-- Numbers that can be used again, in increasing order. -/
  free : List Nat := []
  running : List (Nat × TapeId) := []
  deriving Repr, DecidableEq, Inhabited

namespace ThreadTable

def isRunning (t : ThreadTable) (thread : Nat) : Bool :=
  t.running.any (·.1 = thread)

def insertNumber (n : Nat) : List Nat → List Nat
  | [] => [n]
  | m :: rest => if n < m then n :: m :: rest else if n = m then m :: rest else m :: insertNumber n rest

/-- The number of a new thread: the least free one, or the next. -/
def acquire (t : ThreadTable) (tape : TapeId) : Nat × ThreadTable :=
  match t.free with
  | n :: free => (n, { t with free, running := (n, tape) :: t.running })
  | [] => (t.next, { t with next := t.next + 1, running := (t.next, tape) :: t.running })

def release (t : ThreadTable) (thread : Nat) : ThreadTable :=
  { t with free := insertNumber thread t.free, running := t.running.filter (·.1 ≠ thread) }

end ThreadTable

structure Program where
  name : String
  options : Options
  tapes : Array Tape
  tree : RequirementTree
  current : TapeId
  heap : Heap
  threads : ThreadTable := {}
  macros : MacroCache := {}
  /-- Tapes for batches of macro calls, by key and total width. -/
  macroTapes : List ((MacroKey × Nat) × (TapeId × List Reg)) := []
  policy : MacroPolicy
  vectorSize : Nat := 1
  domain : FieldDomain := .base
  deriving Repr, Inhabited

abbrev BuildM := ExceptT CompileError (StateM Program)

namespace Program

def mainTape : TapeId := 0

def new (name : String) (options : Options) : Except CompileError Program :=
  match options.fault? with
  | some fault => .error (.options fault)
  | none =>
    let (root, tree) := RequirementTree.empty.addNode name
    .ok {
      name, options, tree
      tapes := #[Tape.new mainTape name .main true root]
      current := mainTape
      heap := { reuse := options.reuseMemory, limit := options.memoryLimit }
      policy := .threshold options.macroCallThreshold }

/-- The largest number of threads that ran at the same time, the main thread included. -/
def maxParallelTapes (p : Program) : Nat := p.threads.next

def tapeAt (p : Program) (id : TapeId) : Tape := p.tapes.getD id default

def modifyTape (p : Program) (id : TapeId) (f : Tape → Tape) : Program :=
  { p with tapes := p.tapes.modify id f }

def currentTape (p : Program) : Tape := p.tapeAt p.current

end Program

namespace BuildM

variable {α : Type}

/-- Run an action and hand out its outcome instead of failing. -/
def attempt (act : BuildM α) : BuildM (Except CompileError α) :=
  ExceptT.mk (do return .ok (← act.run))

def reject (fault : ConstructionFault) : BuildM α := throw (.construction fault)

def misuse (fault : UsageFault) : BuildM α := throw (.usage fault)

def tape (id : TapeId) : BuildM Tape := do
  match (← get).tapes[id]? with
  | some t => return t
  | none => misuse (.unknownTape id)

def building : BuildM Tape := do
  let t := (← get).currentTape
  if ¬ t.isBuilding then
    reject (.tapeFinalized t.name)
  return t

def modifyCurrent (f : Tape → Tape) : BuildM Unit :=
  modify fun p => p.modifyTape p.current f

def onTree (f : RequirementTree → α × RequirementTree) : BuildM α := do
  let p ← get
  let (a, tree) := f p.tree
  set { p with tree }
  return a

def onRegisters (id : TapeId) (act : RegisterM α) : BuildM α := do
  let p ← get
  let (result, regs) := act.run (p.tapeAt id).regs
  set (p.modifyTape id ({ · with regs }))
  liftM result

def activeNode : BuildM NodeId :=
  return (← building).activeBlock.node

def activePool : BuildM PoolId :=
  return (← building).activeBlock.pool

def pushOp (op : Op) : BuildM Unit := do
  let t ← building
  let t ← t.push op
  modifyCurrent fun _ => t

def pushInstruction (opcode : Opcode) (domain : FieldDomain) (size : Nat)
    (operands : List Operand) : BuildM Unit := do
  let t ← building
  let i ← Instruction.make opcode domain size operands t.regs
  pushOp (.inst i)

def startBlock (name : String) (scope : Option BlockId) (exit : Option Exit) (node : NodeId) :
    BuildM BlockId := do
  let t ← building
  let (id, t) := t.startBlock name scope exit node
  modifyCurrent fun _ => t
  return id

def continueBlock (name : String) : BuildM BlockId := do
  let t ← building
  startBlock name (some t.active) none t.activeBlock.node

def registerInfo (r : Reg) : BuildM (RegisterClass × Nat) := do
  let regs := (← get).currentTape.regs
  if ¬ regs.owns r then
    misuse (.crossTapeRegister r)
  return (regs.classOf r, regs.sizeOf r)

def classOf (r : Reg) : BuildM RegisterClass :=
  return (← registerInfo r).1

def maxVectorSize (options : Options) : Nat :=
  min Wire.maxVectorSize options.registerLimit

def checkVectorSize (size : Nat) : BuildM Unit := do
  if size = 0 then
    reject .emptyVector
  let max := maxVectorSize (← get).options
  if max < size then
    reject (.vectorTooLarge size max)

def withVectorSize (size : Nat) (act : BuildM α) : BuildM α := do
  checkVectorSize size
  let before := (← get).vectorSize
  modify ({ · with vectorSize := size })
  let result ← attempt act
  modify ({ · with vectorSize := before })
  liftM result

def withDomain (domain : FieldDomain) (act : BuildM α) : BuildM α := do
  let before := (← get).domain
  modify ({ · with domain })
  let result ← attempt act
  modify ({ · with domain := before })
  liftM result

def withTape (id : TapeId) (act : BuildM α) : BuildM α := do
  let before := (← get).current
  modify ({ · with current := id })
  let result ← attempt act
  modify ({ · with current := before })
  liftM result

end BuildM

end SecureTape
