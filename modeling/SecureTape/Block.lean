import SecureTape.Macro.Template
import SecureTape.Requirement.Tree

/-!
# Basic blocks

A tape is a sequence of blocks. A block takes operations while it is open; it is closed when the
next block starts, perhaps with a jump; its place is fixed when the tape is laid out; and its
operations are dropped when the tape is encoded.
-/

namespace SecureTape

/-- An operation of a block: an instruction, or a macro call that is not expanded yet. -/
inductive Op where
  | inst (i : Instruction)
  | call (c : MacroCall)
  deriving Repr, DecidableEq, Inhabited

namespace Op

def inst? : Op → Option Instruction
  | .inst i => some i
  | .call _ => none

def reads : Op → List Reg
  | .inst i => i.reads
  | .call c => c.reads

def writes : Op → List Reg
  | .inst i => i.writes
  | .call c => c.writes

def siteText (regs : RegisterFile) (site : CallSite) : String :=
  toString site.width ++ ":[" ++ ", ".intercalate (site.args.map regs.label) ++ "]"

def text (regs : RegisterFile) : Op → String
  | .inst i => i.text regs
  | .call c =>
    s!"macro {c.key.text} width {c.totalWidth} rounds {c.template.rounds} " ++
      s!"io {c.template.io} memory {c.template.touchesMemory} sites " ++
      " ".intercalate (c.sites.map (siteText regs))

end Op

inductive ExitKind where
  | always
  | ifNonZero (cond : Reg)
  | ifZero (cond : Reg)
  deriving Repr, DecidableEq, Inhabited

def ExitKind.condition? : ExitKind → Option Reg
  | .always => none
  | .ifNonZero cond | .ifZero cond => some cond

/-- The jump at the end of a block. Its target is filled in when it is known. -/
structure Exit where
  kind : ExitKind
  target : Option BlockId := none
  deriving Repr, DecidableEq, Inhabited

inductive BlockState where
  | opened
  | closed
  | placed
  | purged
  deriving Repr, DecidableEq, Inhabited

structure Block where
  name : String
  ops : List Op := []
  scope : Option BlockId
  children : List BlockId := []
  pool : PoolId
  node : NodeId
  exit : Option Exit := none
  state : BlockState := .opened
  /-- Registers that the block reads before it writes them. -/
  inherited : List Reg := []
  rounds : Nat := 0
  groups : Nat := 0
  offset : Nat := 0
  /-- The number of operations, noted when they are dropped. -/
  length : Nat := 0
  usage : Tally := .empty
  deriving Repr, DecidableEq, Inhabited

namespace Block

def isOpen (b : Block) : Bool := b.state = .opened

def instructions (b : Block) : List Instruction := b.ops.filterMap Op.inst?

/-- Close the block; a block that is closed already keeps its exit. -/
def close (b : Block) (exit : Option Exit) : Block :=
  if b.isOpen then { b with exit, state := .closed } else b

def setTarget (b : Block) (target : BlockId) : Block :=
  { b with exit := b.exit.map ({ · with target := some target }) }

def purge (b : Block) : Block :=
  { b with length := b.ops.length, ops := [], inherited := [], state := .purged }

end Block

end SecureTape
