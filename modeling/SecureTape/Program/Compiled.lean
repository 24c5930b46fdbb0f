import SecureTape.Hash.Sha256
import SecureTape.Program.Allocated
import SecureTape.Schedule
import SecureTape.Text.Utf8

/-!
# Compiled programs

An allocated tape is encoded, and its blocks are dropped. A program is finished when all its tapes
are encoded; it comes with a schedule that lists them. A compiled program is stored as one file for
each tape and one for the schedule.
-/

namespace SecureTape

structure CompiledProgram where
  name : String
  tapes : List FinishedTape
  schedule : Schedule
  requirements : Tally
  memoryUsage : PerClass Nat
  deriving Repr, DecidableEq

namespace BuildM

def physicalOf (p : Program) (r : Reg) : Nat :=
  (p.tapeAt r.tape).regs.physical r

/-- Drop the operations of all blocks, and the blocks that had none. -/
def purgeTape (t : Tape) : Tape :=
  { t with blocks := (t.blocks.map Block.purge).filter (0 < ·.length) }

def encodeTape (id : TapeId) : BuildM Unit := do
  let p ← get
  let t := p.tapeAt id
  match t.state with
  | .finished _ => return
  | .building | .scheduled => misuse (.unknownTape id)
  | .allocated registerUsage requirements =>
    let is := t.blocks.toList.flatMap Block.instructions
    let bytecode := is.flatMap (·.encode (physicalOf p))
    let result : FinishedTape := {
      name := t.name, bytecode, registerUsage, requirements
      digest := Sha256.hash bytecode
      instructionCount := is.length }
    modify fun p => p.modifyTape id fun t => { purgeTape t with state := .finished result }

/-- Encode one tape before the program is complete. The tapes that it runs or calls are scheduled
and allocated along with it. -/
def finalizeTape (id : TapeId) : BuildM Unit := do
  let _ ← tape id
  if id = Program.mainTape then
    closeMain
  (← scheduleClosure id).forM ensureAllocated
  encodeTape id

def scheduleOf (p : Program) (tapes : List FinishedTape) : Schedule where
  programName := p.name
  maxParallelTapes := p.maxParallelTapes
  tapes := tapes.map fun t => ⟨t.name, t.instructionCount⟩
  arithmetic := p.options.arithmetic
  notes := p.options.scheduleNotes
  security := p.options.security
  galoisLength := p.options.galoisLength
  digest := Sha256.hash (tapes.flatMap (·.bytecode))

def finishedTape (t : Tape) : BuildM FinishedTape :=
  match t.state with
  | .finished result => return result
  | _ => reject (.tapeFinalized t.name)

def finish : BuildM CompiledProgram := do
  closeMain
  scheduleAll
  (List.range (← get).tapes.size).forM ensureAllocated
  (List.range (← get).tapes.size).forM encodeTape
  let p ← get
  let tapes ← p.tapes.toList.mapM finishedTape
  return {
    name := p.name, tapes
    schedule := scheduleOf p tapes
    requirements := (tapes.head?.map (·.requirements)).getD .empty
    memoryUsage := p.heap.top }

end BuildM

namespace CompiledProgram

def tape? (c : CompiledProgram) (name : String) : Option FinishedTape :=
  c.tapes.find? (·.name == name)

def schedulePath (c : CompiledProgram) : String :=
  "Schedules/" ++ c.name ++ ".sch"

def writeFile (files : List (String × Bytes)) (path : String) (content : Bytes) :
    List (String × Bytes) :=
  files.filter (·.1 ≠ path) ++ [(path, content)]

/-- The files of a program below the target directory: the bytecode of each tape and the
schedule. -/
def files (c : CompiledProgram) : List (String × Bytes) :=
  let tapes := c.tapes.foldl (fun files t =>
    writeFile files ("Bytecode/" ++ t.name ++ ".bc") t.bytecode) []
  writeFile tapes c.schedulePath (Text.utf8 c.schedule.toText)

end CompiledProgram

end SecureTape
