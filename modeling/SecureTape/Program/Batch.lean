import SecureTape.Program.Macro

/-!
# Batches of macro calls

The scheduler merges calls of the same macro into a batch. A batch is expanded in place, site by
site, or it becomes a call of a tape that runs the template once at the total width: the arguments
of all sites are gathered in one register before the call and spread again after it.
-/

namespace SecureTape

namespace BuildM

def moveInstruction (dest src : Reg) : RegisterM Instruction := do
  let cls := (← get).classOf src
  RegisterM.instruction (byClass cls .movint .movs .movc) (cls.domain?.getD .base)
    ((← get).sizeOf src) [dest, src]

/-- Copy between the sites of a batch and the runs of a register, one after the other; `step` gets
the run and the argument of a site. -/
def copyRuns (step : Reg → Reg → RegisterM Instruction) (r : Reg) :
    Nat → List (Reg × Nat) → RegisterM (List Instruction)
  | _, [] => return []
  | offset, (arg, width) :: rest => do
    let run ← RegisterM.viewOf r offset width
    let i ← step run arg
    return i :: (← copyRuns step r (offset + width) rest)

/-- The code of a batch while it is put together: copies before the call, the operand groups of the
call, and copies after it. -/
structure BatchCode where
  before : List Instruction := []
  inputs : List (List Operand) := []
  outputs : List (List Operand) := []
  after : List Instruction := []

def batchGroup (width : Nat) (cls : RegisterClass) (param concat : Reg) : List Operand :=
  [.number width, .number cls.index, .callee param, .reg concat]

/-- Gather one argument of all sites in a register of the total width, before the call or after
it, as its access asks for. -/
def batchArgument (width : Nat) (cls : RegisterClass) (access : Access) (param : Reg)
    (args : List (Reg × Nat)) (code : BatchCode) : RegisterM BatchCode := do
  let code ←
    if access.reads then do
      let concat ← RegisterM.create cls width
      let copies ← copyRuns (fun run arg => moveInstruction run arg) concat 0 args
      pure { code with
        before := code.before ++ copies
        inputs := code.inputs ++ [batchGroup width cls param concat] }
    else pure code
  if access.writes then
    let concat ← RegisterM.create cls width
    let copies ← copyRuns (fun run arg => moveInstruction arg run) concat 0 args
    return { code with
      after := code.after ++ copies
      outputs := code.outputs ++ [batchGroup width cls param concat] }
  else
    return code

/-- The arguments of all sites at a position of the signature, with the widths of the sites. -/
def argumentsAt (c : MacroCall) (position : Nat) : List (Reg × Nat) :=
  c.sites.map fun site => (site.args.getD position default, site.width)

def batchFrom (c : MacroCall) (width : Nat) :
    Nat → MacroSignature → List Reg → BatchCode → RegisterM BatchCode
  | position, (cls, access) :: signature, param :: params, code => do
    let code ← batchArgument width cls access param (argumentsAt c position) code
    batchFrom c width (position + 1) signature params code
  | _, _, _, code => return code

/-- The instructions that copy the arguments of all sites in, call the tape, and copy back. -/
def batchInstructions (c : MacroCall) (width : Nat) (callee : TapeId) (params : List Reg) :
    RegisterM (List Instruction) := do
  let code ← batchFrom c width 0 c.template.signature params {}
  let call ← RegisterM.instruction .callTape .base 1 (callOperands callee code.inputs code.outputs)
  return code.before ++ [call] ++ code.after

def pushAll (id : TapeId) (is : List Instruction) : BuildM Unit :=
  is.forM fun i => do
    let t ← ((← get).tapeAt id).push (.inst i)
    modify fun p => p.modifyTape id fun _ => t

def exportParams (id : TapeId) (width : Nat) : MacroSignature → BuildM (List Reg)
  | [] => return []
  | (cls, _) :: rest => do
    let r ← onRegisters id (RegisterM.create cls width)
    modify fun p => p.modifyTape id fun t =>
      { t with regs := t.regs.markExported r, params := t.params ++ [r] }
    return r :: (← exportParams id width rest)

def macroTape (t : Template) (width : Nat) : BuildM (TapeId × List Reg) := do
  let id ← addTape (t.key.name ++ "-" ++ toString width) .function true
  let params ← exportParams id width t.signature
  let code ← onRegisters id (t.expand params width)
  pushAll id code
  modify fun p => p.modifyTape id ({ · with bitLengths := t.bitLengths })
  let root := ((← get).tapeAt id).root
  onTree fun tree => ((), tree.addUsage root (t.extra.scale (.finite width)))
  return (id, params)

/-- The tape for batches of a template at a total width, made if there is none yet. -/
def batchTape (t : Template) (width : Nat) : BuildM (TapeId × List Reg) := do
  match (← get).macroTapes.lookup (t.key, width) with
  | some entry => return entry
  | none =>
    let entry ← macroTape t width
    modify fun p => { p with macroTapes := ((t.key, width), entry) :: p.macroTapes }
    return entry

def batchedCall (id : TapeId) (node : NodeId) (c : MacroCall) : BuildM (List Instruction) := do
  let width := c.totalWidth
  let max := maxVectorSize (← get).options
  if max < width then
    reject (.vectorTooLarge width max)
  let (callee, params) ← batchTape c.template width
  let code ← onRegisters id (batchInstructions c width callee params)
  let root := ((← get).tapeAt callee).root
  discard <| onTree (·.addGroup node .sum [root])
  modify fun p => p.modifyTape id fun t => { t with callees := t.callees ++ [callee] }
  return code

def inlineCall (id : TapeId) (node : NodeId) (c : MacroCall) : BuildM (List Instruction) := do
  let expanded ← c.sites.mapM fun site => do
    onTree fun tree => ((), tree.addUsage node (c.template.extra.scale (.finite site.width)))
    onRegisters id (c.template.expand site.args site.width)
  return expanded.flatten

def expandCalls (id : TapeId) (node : NodeId) : List Op → BuildM (List Op)
  | [] => return []
  | .inst i :: rest => return .inst i :: (← expandCalls id node rest)
  | .call c :: rest => do
    let p ← get
    let code ←
      if p.policy.usesCall c.totalWidth (p.tapeAt id).singular then batchedCall id node c
      else inlineCall id node c
    return code.map .inst ++ (← expandCalls id node rest)

end BuildM

end SecureTape
