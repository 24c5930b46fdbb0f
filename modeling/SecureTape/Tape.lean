import SecureTape.Block

/-!
# Tapes

A tape is the code of one thread or of one called function: its blocks, the registers they use, and
the root of its part of the requirement tree.
-/

namespace SecureTape

inductive TapeKind where
  | main
  | thread
  | function
  /-- A macro body while it is compiled. -/
  | template
  deriving Repr, DecidableEq, Inhabited

structure ThreadOptions where
  /-- At most one thread runs the tape at a time. -/
  single : Bool := false
  /-- The number of threads that run the tape at the same time. -/
  threads : Option Nat := none
  deriving Repr, DecidableEq, Inhabited

structure FinishedTape where
  name : String
  bytecode : Bytes
  digest : Bytes
  instructionCount : Nat
  registerUsage : PerClass Nat
  requirements : Tally
  deriving Repr, DecidableEq, Inhabited

inductive TapeState where
  | building
  | scheduled
  | allocated (registerUsage : PerClass Nat) (requirements : Tally)
  | finished (result : FinishedTape)
  deriving Repr, DecidableEq, Inhabited

inductive Scope where
  /-- A loop: the first block of its body, the block before it, the requirement node around it, and
  the counter and number of rounds if it counts. -/
  | loop (start entry : BlockId) (outer : NodeId) (counter : Option (Reg × Nat))
  /-- A branch: the block with the condition, the requirement group of the two sides, the node
  around it, and the last block of the first side once the second has begun. -/
  | branch (cond : BlockId) (group : Nat) (outer : NodeId) (thenEnd : Option BlockId)
  /-- A function: the block before it and the node around it. -/
  | function (entry : BlockId) (outer : NodeId)
  deriving Repr, DecidableEq, Inhabited

def Scope.kind : Scope → ScopeKind
  | .loop .. => .loop
  | .branch .. => .branch
  | .function .. => .function

structure Tape where
  id : TapeId
  name : String
  kind : TapeKind
  /-- Never runs beside itself. -/
  singular : Bool
  threads : Option Nat := none
  regs : RegisterFile
  blocks : Array Block
  active : BlockId := 0
  root : NodeId
  scopes : List Scope := []
  bitLengths : BitLengths := {}
  params : List Reg := []
  prologue : List Op := []
  /-- Registers with the addresses of thread memory, by base and stride. -/
  threadAddresses : List ((Nat × Nat) × Reg) := []
  callees : List TapeId := []
  state : TapeState := .building
  blockCounter : Nat := 1
  deriving Repr, DecidableEq, Inhabited

namespace Tape

def new (id : TapeId) (name : String) (kind : TapeKind) (singular : Bool) (root : NodeId) : Tape where
  id := id
  name := name
  kind := kind
  singular := singular
  root := root
  regs := .new id
  blocks := #[{ name := name ++ "-start-0", scope := none, pool := ⟨id, 0⟩, node := root }]

def isBuilding (t : Tape) : Bool := t.state = .building

def block (t : Tape) (id : BlockId) : Block := t.blocks.getD id default

def modifyBlock (t : Tape) (id : BlockId) (f : Block → Block) : Tape :=
  { t with blocks := t.blocks.modify id f }

def activeBlock (t : Tape) : Block := t.block t.active

def push (t : Tape) (op : Op) : Except CompileError Tape :=
  if ¬ t.isBuilding then .error (.construction (.tapeFinalized t.name))
  else if ¬ t.activeBlock.isOpen then .error (.construction (.blockClosed t.name t.active))
  else .ok (t.modifyBlock t.active fun b => { b with ops := b.ops ++ [op] })

/-- Close the active block and start another. It shares the allocation pool of its scope; without
a scope it opens a pool of its own. -/
def startBlock (t : Tape) (name : String) (scope : Option BlockId) (exit : Option Exit)
    (node : NodeId) : BlockId × Tape :=
  let t := t.modifyBlock t.active (·.close exit)
  let id := t.blocks.size
  let pool := match scope with
    | some parent => (t.block parent).pool
    | none => ⟨t.id, id⟩
  let block : Block :=
    { name := s!"{t.name}-{name}-{t.blockCounter}", scope, pool, node }
  let t := { t with
    blocks := t.blocks.push block, blockCounter := t.blockCounter + 1, active := id }
  let t := match scope with
    | some parent => t.modifyBlock parent fun b => { b with children := b.children ++ [id] }
    | none => t
  (id, t)

def closeAll (t : Tape) : Tape :=
  { t with blocks := t.blocks.map (·.close none) }

/-- The number of instructions, of operations as long as the tape is not encoded. -/
def instructionCount (t : Tape) : Nat :=
  match t.state with
  | .finished result => result.instructionCount
  | _ => (t.blocks.toList.flatMap (·.ops)).length

end Tape

end SecureTape
