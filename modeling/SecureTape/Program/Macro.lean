import SecureTape.Flow.Rounds
import SecureTape.Program.Thread

/-!
# Macro calls

A macro is called on registers of the current tape. Its body is compiled once for each key, on a
tape of its own and at width 1, and the call is left unexpanded until the tape is scheduled. Without
a cache the body is built in place.
-/

namespace SecureTape

/-- A composite operation: its name and static parameters, what it does with its arguments, and
the action that emits it. -/
structure MacroBody where
  name : String
  params : List Int := []
  signature : MacroSignature
  build : List Reg → BuildM Unit
  deriving Inhabited

namespace BuildM

def rejectMacro {α : Type} (name : String) (flaw : MacroFlaw) : BuildM α :=
  reject (.invalidMacro name flaw)

/-- Check the arguments of a macro from the first on; the answer is their common size. -/
def checkArguments (name : String) :
    Option Nat → List (Reg × RegisterClass) → BuildM (Option Nat)
  | size, [] => return size
  | size, (arg, expected) :: rest => do
    let (cls, width) ← registerInfo arg
    if cls ≠ expected then
      rejectMacro name (.argumentClass expected cls)
    if size.getD width ≠ width then
      rejectMacro name .argumentSizes
    checkArguments name (some (size.getD width)) rest

def expandBody : List Op → Tally → RegisterM (List Op × Tally)
  | [], extra => return ([], extra)
  | .inst i :: rest, extra => do
    let (ops, extra) ← expandBody rest extra
    return (.inst i :: ops, extra)
  | .call c :: rest, extra => do
    let expanded ← c.sites.mapM fun site => c.template.expand site.args site.width
    let extra := c.sites.foldl (fun extra site =>
      extra.sum (c.template.extra.scale (.finite site.width))) extra
    let (ops, extra) ← expandBody rest extra
    return (expanded.flatten.map .inst ++ ops, extra)

def createParams (signature : MacroSignature) : RegisterM (List Reg) :=
  signature.mapM fun (cls, _) => RegisterM.create cls 1

def finishTemplate (key : MacroKey) (signature : MacroSignature) (params : List Reg) (t : Tape) :
    BuildM Template := do
  if ¬ t.scopes.isEmpty ∨ t.blocks.size ≠ 1 then
    rejectMacro key.text .severalBlocks
  let own ← onTree (·.aggregate t.root)
  let (result, regs) := (expandBody (t.block 0).ops own).run t.regs
  let (ops, extra) ← liftM (n := BuildM) result
  let options : MergeOptions :=
    { mergeRounds := (← get).options.mergeRounds, fullDeadCode := false }
  let (ops, stats) := optimize regs options (params.map regs.slotKey) ops
  let instructions := ops.filterMap Op.inst?
  return {
    key, signature, params, regs, instructions, extra
    rounds := stats.rounds
    io := instructions.any (·.has .io)
    touchesMemory := instructions.any (·.opcode.memoryClass?.isSome)
    bitLengths := t.bitLengths }

/-- Build a macro body once, at width 1, on a tape of its own that is dropped afterwards. -/
def compileTemplate (body : MacroBody) (key : MacroKey) (signature : MacroSignature) :
    BuildM Template := do
  let id := (← get).tapes.size
  let root ← onTree (·.addNode ("template " ++ key.text))
  let blank := Tape.new id key.text .template true root
  let (result, regs) := (createParams signature).run blank.regs
  let params ← liftM (n := BuildM) result
  modify fun p => { p with tapes := p.tapes.push { blank with regs } }
  let before ← get
  modify ({ · with vectorSize := 1, domain := key.domain })
  let built ← attempt (withTape id (body.build params))
  modify ({ · with vectorSize := before.vectorSize, domain := before.domain })
  let tapes := (← get).tapes
  modify fun p => { p with tapes := p.tapes.take id }
  if tapes.size ≠ id + 1 then
    rejectMacro key.text .createsTapes
  liftM (n := BuildM) built
  finishTemplate key signature params (tapes.getD id default)

def template (body : MacroBody) (key : MacroKey) (signature : MacroSignature) : BuildM Template := do
  let p ← get
  let (found, macros) := p.macros.find? key
  set { p with macros }
  match found with
  | some t => return t
  | none =>
    let t ← compileTemplate body key signature
    modify fun p => { p with macros := p.macros.insert t }
    return t

def callMacro (body : MacroBody) (args : List Reg) : BuildM Unit := do
  let p ← get
  let signature := body.signature.map fun (cls, access) => (cls.inDomain p.domain, access)
  if signature.length ≠ args.length then
    rejectMacro body.name (.argumentCount signature.length args.length)
  let common ← checkArguments body.name none (args.zip (signature.map (·.1)))
  let width := common.getD p.vectorSize
  if p.options.cacheMacros then
    let key := ⟨body.name, body.params, p.options.security, p.domain⟩
    let t ← template body key signature
    let _ ← building
    modifyCurrent fun tape => { tape with bitLengths := tape.bitLengths.merge t.bitLengths }
    pushOp (.call ⟨t, [⟨args, width⟩]⟩)
  else
    withVectorSize width (body.build args)

end BuildM

end SecureTape
