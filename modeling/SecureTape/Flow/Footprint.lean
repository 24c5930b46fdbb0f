import SecureTape.Block

/-!
# Footprints and dependencies

What an operation touches is described by cells: register slots, the channel to the outside, the
memory of each class, and control. Input and output write the channel, and communication reads it;
a barrier or jump writes control, and everything reads it. Two operations conflict when one writes
a cell that the other touches.

The dependencies of an operation are the earlier operations that conflict with it over a cell which
no operation between the two writes.
-/

namespace SecureTape

/-- Something that operations can conflict over. -/
inductive Cell where
  /-- A register with its views and all that is linked to it. -/
  | slot (key : Nat)
  /-- The order in which the outside sees the program. -/
  | channel
  | memory (cls : RegisterClass)
  /-- The order of operations as such. -/
  | control
  deriving Repr, DecidableEq, Inhabited

structure Footprint where
  reads : List Cell
  writes : List Cell
  deriving Repr, DecidableEq, Inhabited

namespace Op

def weight : Op → Nat
  | .inst i => if i.communicates then 1 else 0
  | .call c => max c.template.rounds 1

def isBarrier : Op → Bool
  | .inst i => i.has .barrier || i.has .jump
  | .call _ => false

def isIo : Op → Bool
  | .inst i => i.has .io
  | .call c => c.template.io

def loads : Op → List RegisterClass
  | .inst i => if i.has .memWrite then [] else i.opcode.memoryClass?.toList
  | .call _ => []

/-- The memory an operation stores to. A macro that touches memory may store anywhere. -/
def stores : Op → List RegisterClass
  | .inst i => if i.has .memWrite then i.opcode.memoryClass?.toList else []
  | .call c => if c.template.touchesMemory then RegisterClass.all else []

def footprint (regs : RegisterFile) (op : Op) : Footprint where
  reads := .control ::
    (op.reads.map (fun r => .slot (regs.slotKey r)) ++ op.loads.map .memory ++
      if op.isIo then [] else if 0 < op.weight then [.channel] else [])
  writes :=
    op.writes.map (fun r => .slot (regs.slotKey r)) ++ op.stores.map .memory ++
      (if op.isIo then [.channel] else []) ++ if op.isBarrier then [.control] else []

end Op

namespace Footprint

def touches (f : Footprint) (reads writes : List Cell) : Bool :=
  f.writes.any (fun c => c ∈ reads || c ∈ writes) || f.reads.any (· ∈ writes)

/-- One of the two operations writes a cell that the other touches. -/
def conflicts (f g : Footprint) : Bool :=
  f.touches g.reads g.writes

/-- The operations among `earlier`, the latest first, that an operation with the given cells
depends on. A cell is settled by the latest operation that writes it. -/
def dependsOn : List Cell → List Cell → List (Nat × Footprint) → List Nat
  | _, _, [] => []
  | reads, writes, (j, f) :: earlier =>
    let rest := dependsOn (reads.filter (· ∉ f.writes)) (writes.filter (· ∉ f.writes)) earlier
    if f.touches reads writes then j :: rest else rest

def dependenciesFrom : List (Nat × Footprint) → List Footprint → List (List Nat)
  | _, [] => []
  | earlier, f :: later =>
    (dependsOn f.reads f.writes earlier).reverse ::
      dependenciesFrom ((earlier.length, f) :: earlier) later

end Footprint

/-- For each operation the numbers of those it depends on, in increasing order. -/
def dependencies (regs : RegisterFile) (ops : List Op) : List (List Nat) :=
  Footprint.dependenciesFrom [] (ops.map (·.footprint regs))

end SecureTape
