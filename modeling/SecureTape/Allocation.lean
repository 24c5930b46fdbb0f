import SecureTape.Block

/-!
# Register allocation

Slots are assigned in one walk over the code from its end to its start. A register gets a slot at
its last use and gives it back once all its elements, and those of all registers linked to it, have
been written. Slots are handed on among registers of one allocation pool, class and size. Before
the code of a loop is walked, all that its body takes over from outside gets slots, so that these
slots are kept for the whole loop.
-/

namespace SecureTape

/-- A slot in use: its first physical register and the pool it goes back to. -/
structure Slot where
  start : Nat
  pool : PoolId
  deriving Repr, DecidableEq, Inhabited

/-- Where a slot can be used again. -/
structure SlotClass where
  pool : PoolId
  cls : RegisterClass
  size : Nat
  deriving Repr, DecidableEq, Inhabited

structure Allocator where
  regs : RegisterFile
  limit : Nat
  top : PerClass Nat := .fill 0
  /-- Slots given back, the last one first. -/
  free : List (SlotClass × Nat) := []
  /-- Slots in use, by the slot key of their registers. -/
  used : List (Nat × Slot) := []
  written : List (Nat × List (Nat × Nat)) := []
  deriving Repr, DecidableEq, Inhabited

/-- A step of the walk; slots that were assigned before it failed stay assigned. -/
abbrev AllocM := ExceptT CompileError (StateM Allocator)

namespace Allocator

def takeFree (wanted : SlotClass) :
    List (SlotClass × Nat) → Option (Nat × List (SlotClass × Nat))
  | [] => none
  | (c, start) :: rest =>
    if c = wanted then some (start, rest)
    else (takeFree wanted rest).map fun (s, rest) => (s, (c, start) :: rest)

def obtain (wanted : SlotClass) : AllocM Nat := do
  let a ← get
  match takeFree wanted a.free with
  | some (start, free) =>
    set { a with free }
    return start
  | none =>
    let start := a.top.get wanted.cls
    let top := start + wanted.size
    set { a with top := a.top.set wanted.cls top }
    if a.limit < top then
      throw (.exhausted .registers wanted.cls top a.limit)
    return start

def assign (r : Reg) (pool : PoolId) : AllocM Unit := do
  let a ← get
  let key := a.regs.slotKey r
  if (a.used.lookup key).isSome then
    return
  let d := a.regs.data key
  let start ← obtain ⟨pool, d.cls, d.size⟩
  modify fun a => { a with
    regs := (a.regs.aliases key).foldl (fun f id => f.setSlot id start) a.regs
    used := (key, ⟨start, pool⟩) :: a.used }

def overlap (p q : Nat × Nat) : Bool :=
  p.1 < q.1 + q.2 && q.1 < p.1 + p.2

def runs (a : Allocator) (base : Nat) : List (Nat × Nat) :=
  (a.written.lookup base).getD []

def isCovered (a : Allocator) (base : Nat) : Bool :=
  (a.written.lookup base).isSome &&
    ((a.runs base).map (·.2)).foldl (· + ·) 0 == (a.regs.data base).size

def giveBack (a : Allocator) (key : Nat) : Allocator :=
  match a.used.lookup key with
  | none => a
  | some slot =>
    let d := a.regs.data key
    { a with
      used := a.used.filter (·.1 ≠ key)
      free := (⟨slot.pool, d.cls, d.size⟩, slot.start) :: a.free }

/-- Note that a register is written. No element is written twice, and a register whose alias set
is written completely gives its slot back. -/
def define (r : Reg) : AllocM Unit := do
  let a ← get
  let (base, offset) := a.regs.resolve r
  let run := (offset, a.regs.sizeOf r)
  let earlier := a.runs base
  if earlier.any (overlap run) then
    throw (.construction (.doubleWrite (a.regs.label r)))
  let a := { a with written := (base, run :: earlier) :: a.written.filter (·.1 ≠ base) }
  let members := a.regs.aliases (a.regs.slotKey r)
  if members.all a.isCovered && !members.any fun id => (a.regs.data id).exported then
    set (a.giveBack (a.regs.slotKey r))
  else
    set a

/-- Walk over an instruction: its results and operands need slots, and then its results are
written. -/
def visit (pool : PoolId) (i : Instruction) : AllocM Unit := do
  i.writes.forM (assign · pool)
  i.reads.forM (assign · pool)
  i.writes.forM define

/-- The blocks of the queue and all below them, level by level. -/
def blocksBelow (blocks : Array Block) : Nat → List BlockId → List BlockId
  | 0, _ => []
  | _, [] => []
  | fuel + 1, id :: queue =>
    id :: blocksBelow blocks fuel (queue ++ (blocks.getD id default).children)

def visitLoop (blocks : Array Block) (start : BlockId) : AllocM Unit :=
  (blocksBelow blocks blocks.size [start]).forM fun id =>
    let block := blocks.getD id default
    block.inherited.forM (assign · block.pool)

/-- Walk over a block. A jump to its own or an earlier block closes a loop. -/
def visitBlock (blocks : Array Block) (index : Nat) (block : Block) : AllocM Unit := do
  match block.exit.bind (·.target) with
  | some target => if target ≤ index then visitLoop blocks target
  | none => pure ()
  block.instructions.reverse.forM (visit block.pool)

/-- Walk over the blocks. Exported registers get their slots first. -/
def walk (blocks : Array Block) : AllocM Unit := do
  match blocks[0]? with
  | none => return
  | some first =>
    (← get).regs.exported.forM (assign · first.pool)
    blocks.toList.zipIdx.reverse.forM fun (block, index) => visitBlock blocks index block

end Allocator

/-- Assign slots to the registers of a tape. The answer is the number of physical registers in each
class. The file keeps the slots that were assigned also when the walk fails. -/
def allocateRegisters (regs : RegisterFile) (limit : Nat) (blocks : Array Block) :
    Except CompileError (PerClass Nat) × RegisterFile :=
  let (result, a) := (Allocator.walk blocks).run { regs := regs.clearSlots, limit }
  (result.map fun _ => a.top, a.regs)

def exceedsLimit? (counters : PerClass Nat) (limit : Nat) : Option RegisterClass :=
  RegisterClass.all.find? fun cls => limit < counters.get cls

def keepVirtual (regs : RegisterFile) (limit : Nat) :
    Except CompileError (PerClass Nat) × RegisterFile :=
  let regs := regs.clearSlots
  match exceedsLimit? regs.counters limit with
  | some cls => (.error (.exhausted .registers cls (regs.counters.get cls) limit), regs)
  | none => (.ok regs.counters, regs)

end SecureTape
