import SecureTape.Flow.Footprint
import SecureTape.Flow.Liveness

/-!
# Rounds

Independent communication shares rounds. The depth of an operation is the number of rounds that
have to pass before it; communicating operations of equal depth and kind form one unit, and every
other operation is a unit of its own. Units are emitted in an order that respects all dependencies,
the earliest in program order first.
-/

namespace SecureTape

structure MergeOptions where
  mergeRounds : Bool
  fullDeadCode : Bool
  deriving Repr, DecidableEq, Inhabited

structure MergeStats where
  rounds : Nat := 0
  groups : Nat := 0
  eliminated : Nat := 0
  deriving Repr, DecidableEq, Inhabited

inductive Batch where
  | inst (key : MergeKey)
  | call (key : MacroKey)
  deriving Repr, DecidableEq, Inhabited

namespace Op

def batch? : Op → Option Batch
  | .inst i => if i.communicates then some (.inst i.mergeKey) else none
  | .call c => some (.call c.key)

def absorb : Op → Op → Op
  | .inst a, .inst b => .inst (a.absorb b)
  | .call a, .call b => .call (a.absorb b)
  | a, _ => a

end Op

structure MergeUnit where
  /-- Depth and kind, for operations that communicate. -/
  key : Option (Nat × Batch)
  /-- The numbers of the operations, in increasing order. -/
  members : List Nat
  deriving Repr, DecidableEq, Inhabited

namespace MergeUnit

def depths (weights : Array Nat) (deps : List (List Nat)) : Array Nat :=
  deps.foldl (fun depths ps =>
    depths.push ((ps.map fun p => depths.getD p 0 + weights.getD p 0).foldl max 0)) #[]

def place (units : List MergeUnit) (key : Option (Nat × Batch)) (i : Nat) : List MergeUnit :=
  if key.isSome ∧ units.any (·.key = key) then
    units.map fun u => if u.key = key then { u with members := u.members ++ [i] } else u
  else units ++ [⟨key, [i]⟩]

/-- The units of a list of operations with their depths, in the order of their first members. -/
def ofOps (ops : List Op) (depths : Array Nat) : List MergeUnit :=
  (ops.zipIdx).foldl (fun units (op, i) =>
    place units (op.batch?.map (depths.getD i 0, ·)) i) []

def assignment (units : List MergeUnit) (n : Nat) : Array Nat :=
  (units.zipIdx).foldl (fun table (u, k) =>
    u.members.foldl (fun table i => table.setIfInBounds i k) table) (Array.replicate n 0)

def dependsOn (deps : Array (List Nat)) (unitOf : Array Nat) (k : Nat) (u : MergeUnit) : List Nat :=
  ((u.members.flatMap fun i => deps.getD i []).map (unitOf.getD · 0)).filter (· ≠ k)

/-- The order in which units are emitted: always the first one whose dependencies are done. -/
def order (deps : Array (List Nat)) : Nat → Array Bool → List Nat → List Nat
  | 0, _, _ => []
  | fuel + 1, done, waiting =>
    match waiting.find? fun k => (deps.getD k []).all (done.getD · false) with
    | none => []
    | some k => k :: order deps fuel (done.setIfInBounds k true) (waiting.erase k)

def merged? (ops : Array Op) (u : MergeUnit) : Option Op :=
  match u.members.filterMap (ops[·]?) with
  | [] => none
  | op :: rest => some (rest.foldl Op.absorb op)

end MergeUnit

def mergeRounds (regs : RegisterFile) (ops : List Op) : List Op × MergeStats :=
  let deps := dependencies regs ops
  let weights := (ops.map Op.weight).toArray
  let depths := MergeUnit.depths weights deps
  let rounds := ((List.range ops.length).map fun i => depths.getD i 0 + weights.getD i 0).foldl max 0
  let units := MergeUnit.ofOps ops depths
  let unitOf := MergeUnit.assignment units ops.length
  let depsArray := deps.toArray
  let unitDeps := (units.zipIdx.map fun (u, k) => u.dependsOn depsArray unitOf k).toArray
  let order := MergeUnit.order unitDeps units.length (Array.replicate units.length false)
    (List.range units.length)
  let opsArray := ops.toArray
  let unitsArray := units.toArray
  (order.filterMap fun k => unitsArray[k]?.bind (·.merged? opsArray),
    { rounds, groups := (units.filter (·.key.isSome)).length })

/-- Without sharing, every communicating operation takes its rounds alone. -/
def countRounds (ops : List Op) : MergeStats where
  rounds := (ops.map Op.weight).foldl (· + ·) 0
  groups := (ops.filter (·.batch?.isSome)).length

def mergeOps (regs : RegisterFile) (share : Bool) (ops : List Op) : List Op × MergeStats :=
  if share then mergeRounds regs ops else (ops, countRounds ops)

def optimize (regs : RegisterFile) (options : MergeOptions) (liveOut : List Nat) (ops : List Op) :
    List Op × MergeStats :=
  let (kept, _, eliminated) := dropDead regs options.fullDeadCode liveOut ops
  let (ops, stats) := mergeOps regs options.mergeRounds kept
  (ops, { stats with eliminated })

end SecureTape
