import SecureTape.Instruction

/-!
# Macro templates

The body of a macro is compiled once, at width 1, into a template. A call site of width `w` is
expanded by replacing the template's parameters with the arguments of the site and every other
register with a new one, all `w` times as wide.
-/

namespace SecureTape

/-- Bit lengths a tape has to support; zero means none. -/
structure BitLengths where
  base : Nat := 0
  extension : Nat := 0
  deriving Repr, DecidableEq, Inhabited

def BitLengths.merge (a b : BitLengths) : BitLengths :=
  ⟨max a.base b.base, max a.extension b.extension⟩

structure MacroKey where
  name : String
  params : List Int
  security : Nat
  domain : FieldDomain
  deriving Repr, DecidableEq, Inhabited

namespace MacroKey

def text (k : MacroKey) : String :=
  k.name ++ "(" ++ ",".intercalate (k.params.map toString) ++ ")"

def textBefore (a b : String) : Bool := a < b

def before (a b : MacroKey) : Bool :=
  if a.name ≠ b.name then textBefore a.name b.name
  else if a.params ≠ b.params then decide (a.params < b.params)
  else if a.security ≠ b.security then decide (a.security < b.security)
  else decide (a.domain.code < b.domain.code)

end MacroKey

abbrev MacroSignature := List (RegisterClass × Access)

/-- A macro body compiled at width 1. -/
structure Template where
  key : MacroKey
  signature : MacroSignature
  params : List Reg
  regs : RegisterFile
  instructions : List Instruction
  rounds : Nat
  io : Bool
  touchesMemory : Bool
  bitLengths : BitLengths
  /-- Counts registered by the body itself, per unit of width. -/
  extra : Tally
  deriving Repr, DecidableEq, Inhabited

/-- An action on a register file that may fail; what it did before it failed stays done. -/
abbrev RegisterM := ExceptT CompileError (StateM RegisterFile)

namespace RegisterM

def create (cls : RegisterClass) (size : Nat) : RegisterM Reg := do
  let (r, f) ← (← get).create cls size
  set f
  return r

def viewOf (r : Reg) (start size : Nat) : RegisterM Reg := do
  let (v, f) ← (← get).viewOf r start size
  set f
  return v

def instruction (opcode : Opcode) (domain : FieldDomain) (size : Nat) (operands : List Operand) :
    RegisterM Instruction := do
  Instruction.make opcode domain size operands (← get)

end RegisterM

namespace Template

def error (t : Template) (flaw : MacroFlaw) : CompileError :=
  .construction (.invalidMacro t.key.text flaw)

def bytes (t : Template) : Bytes :=
  t.instructions.flatMap fun i => i.encode t.regs.physical

/-- Base registers of the template with the registers of the call site that stand for them. -/
abbrev Renaming := List (Nat × Reg)

/-- The register of the call site for a register of the template. A base register without one gets
a new register if it is written here. -/
def rename (t : Template) (r : Reg) (written : Bool) (width : Nat) (map : Renaming) :
    RegisterM (Reg × Renaming) := do
  let (base, offset) := t.regs.resolve r
  let d := t.regs.data base
  let (image, map) ← match map.lookup base with
    | some image => pure (image, map)
    | none =>
      if written then do
        let fresh ← RegisterM.create d.cls (d.size * width)
        pure (fresh, (base, fresh) :: map)
      else throw (t.error (.readBeforeWrite (t.regs.label r)))
  if (t.regs.data r.id).view.isNone then
    return (image, map)
  let view ← RegisterM.viewOf image (offset * width) (t.regs.sizeOf r * width)
  return (view, map)

def renameOperands (t : Template) (writes : List Reg) (width : Nat) :
    List Operand → Renaming → RegisterM (List Operand × Renaming)
  | [], map => return ([], map)
  | .reg r :: rest, map => do
    let (image, map) ← t.rename r (r ∈ writes) width map
    let (images, map) ← t.renameOperands writes width rest map
    return (.reg image :: images, map)
  | other :: rest, map => do
    let (images, map) ← t.renameOperands writes width rest map
    return (other :: images, map)

def expandFrom (t : Template) (width : Nat) :
    List Instruction → Renaming → RegisterM (List Instruction)
  | [], _ => return []
  | i :: rest, map => do
    if ¬ i.opcode.isVector ∧ width ≠ 1 then
      throw (t.error (.notVectorizable i.opcode))
    let size := if i.opcode.isVector then i.size * width else 1
    let (operands, map) ← t.renameOperands i.writes width i.operands map
    let image ← RegisterM.instruction i.opcode i.domain size operands
    return image :: (← t.expandFrom width rest map)

def expand (t : Template) (args : List Reg) (width : Nat) : RegisterM (List Instruction) := do
  if args.length ≠ t.params.length then
    throw (t.error (.argumentCount t.params.length args.length))
  let map := ((t.params.map (·.id)).zip args).reverse
  t.expandFrom width t.instructions map

end Template

structure CallSite where
  args : List Reg
  width : Nat
  deriving Repr, DecidableEq, Inhabited

/-- A call of a macro that is not expanded yet, with all the sites it serves. -/
structure MacroCall where
  template : Template
  sites : List CallSite
  deriving Repr, DecidableEq, Inhabited

namespace MacroCall

def key (c : MacroCall) : MacroKey := c.template.key

def totalWidth (c : MacroCall) : Nat := (c.sites.map (·.width)).foldl (· + ·) 0

def absorb (c other : MacroCall) : MacroCall := { c with sites := c.sites ++ other.sites }

def arguments (c : MacroCall) (pick : Access → Bool) : List Reg :=
  c.sites.flatMap fun site =>
    ((site.args.zip c.template.signature).filter fun a => pick a.2.2).map (·.1)

def reads (c : MacroCall) : List Reg := c.arguments Access.reads

def writes (c : MacroCall) : List Reg := c.arguments Access.writes

end MacroCall

/-- When a batch of macro calls becomes a call of a tape. -/
inductive MacroPolicy where
  /-- From a total width on, in tapes that never run beside themselves. -/
  | threshold (width : Nat)
  | inlineAlways
  | callAlways
  deriving Repr, DecidableEq, Inhabited

def MacroPolicy.usesCall (p : MacroPolicy) (totalWidth : Nat) (singular : Bool) : Bool :=
  match p with
  | .threshold width => singular && width ≤ totalWidth
  | .inlineAlways => false
  | .callAlways => true

structure MacroCache where
  templates : List Template := []
  hits : Nat := 0
  deriving Repr, DecidableEq, Inhabited

namespace MacroCache

/-- The template for a key; finding one counts as a hit. -/
def find? (c : MacroCache) (key : MacroKey) : Option Template × MacroCache :=
  match c.templates.find? (·.key = key) with
  | some t => (some t, { c with hits := c.hits + 1 })
  | none => (none, c)

def insert (c : MacroCache) (t : Template) : MacroCache :=
  { c with templates := c.templates.filter (·.key ≠ t.key) ++ [t] }

def sorted (c : MacroCache) : List Template :=
  c.templates.mergeSort fun a b => !b.key.before a.key

end MacroCache

end SecureTape
