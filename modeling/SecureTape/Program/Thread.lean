import SecureTape.Program.Emit

/-!
# Tapes and threads

Thread tapes are started by the main tape and joined by it; function tapes are called. What a tape
requires is charged to the tape that starts or calls it.
-/

namespace SecureTape

structure ThreadStart where
  tape : TapeId
  argument : Int := 0
  deriving Repr, DecidableEq, Inhabited

/-- A register handed to a function tape, or back from it. -/
structure CallArgument where
  param : Reg
  value : Reg
  /-- Copied back after the call, instead of in before it. -/
  output : Bool
  deriving Repr, DecidableEq, Inhabited

namespace BuildM

variable {α : Type}

def addTape (name : String) (kind : TapeKind) (singular : Bool) : BuildM TapeId := do
  let p ← get
  let id := p.tapes.size
  let name := p.name ++ "-" ++ name
  let root ← onTree (·.addNode name)
  modify fun p => { p with tapes := p.tapes.push (Tape.new id name kind singular root) }
  return id

def newTape (name : String) (options : ThreadOptions) (body : BuildM α) : BuildM (TapeId × α) := do
  let id ← addTape name .thread options.single
  modify fun p => p.modifyTape id ({ · with threads := options.threads })
  let a ← withTape id body
  return (id, a)

def newFunction (name : String) (body : BuildM α) : BuildM (TapeId × α) := do
  let id ← addTape name .function true
  let a ← withTape id body
  return (id, a)

def tapeParameter (cls : RegisterClass) (size : Nat) : BuildM Reg := do
  checkVectorSize size
  let _ ← building
  let r ← onRegisters (← get).current (RegisterM.create cls size)
  modifyCurrent fun t => { t with regs := t.regs.markExported r, params := t.params ++ [r] }
  return r

def checkStarts : List TapeId → List ThreadStart → BuildM (List NodeId)
  | _, [] => return []
  | seen, start :: rest => do
    let t ← tape start.tape
    if t.kind ≠ .thread then
      misuse (.notRunnable t.name)
    if t.singular ∧ start.tape ∈ seen then
      misuse (.singularTapeTwice t.name)
    return t.root :: (← checkStarts (if t.singular then start.tape :: seen else seen) rest)

def acquireThread (id : TapeId) : BuildM Nat := do
  let p ← get
  let (thread, threads) := p.threads.acquire id
  set { p with threads }
  return thread

def addCallee (id : TapeId) (bits : BitLengths) : BuildM Unit :=
  modifyCurrent fun t =>
    { t with bitLengths := t.bitLengths.merge bits, callees := t.callees ++ [id] }

def runTapes (starts : List ThreadStart) : BuildM (List Nat) := do
  if (← get).currentTape.kind ≠ .main then
    misuse .nestedSpawn
  let roots ← checkStarts [] starts
  let threads ← starts.mapM fun start => acquireThread start.tape
  discard <| continueBlock "pre-run-tape"
  let operands := (threads.zip starts).flatMap fun (thread, start) =>
    [.number thread, .number start.tape, .number start.argument]
  pushInstruction .runTape .base 1 operands
  let node ← activeNode
  discard <| onTree (·.addGroup node .max roots)
  starts.forM fun start => do
    addCallee start.tape ((← get).tapeAt start.tape).bitLengths
  discard <| continueBlock "post-run-tape"
  return threads

def joinTapes (threads : List Nat) : BuildM Unit := do
  let table := (← get).threads
  match threads.find? (!table.isRunning ·) with
  | some thread => misuse (.unknownThread thread)
  | none => pure ()
  discard <| continueBlock "pre-join-tape"
  threads.forM fun thread => do
    pushInstruction .joinTape .base 1 [.number thread]
    if ¬ (← get).threads.isRunning thread then
      misuse (.unknownThread thread)
    modify fun p => { p with threads := p.threads.release thread }
  discard <| continueBlock "post-join-tape"

def callGroup (callee : TapeId) (a : CallArgument) : BuildM (List Operand) := do
  let t := (← get).tapeAt callee
  if a.param ∉ t.params then
    misuse (.notAParameter a.param t.name)
  let (cls, size) ← registerInfo a.value
  let flaw :=
    if cls ≠ t.regs.classOf a.param then some .classes
    else if size ≠ t.regs.sizeOf a.param then some .sizes
    else none
  match flaw with
  | some flaw =>
    reject (.invalidLink ((← get).currentTape.regs.label a.value) (t.regs.label a.param) flaw)
  | none => return [.number size, .number cls.index, .callee a.param, .reg a.value]

/-- The operands of a tape call: the callee, the number of inputs, the inputs and the outputs. -/
def callOperands (callee : TapeId) (inputs outputs : List (List Operand)) : List Operand :=
  [.number callee, .number inputs.length] ++ inputs.flatten ++ outputs.flatten

def callTape (id : TapeId) (args : List CallArgument) : BuildM Unit := do
  let callee ← tape id
  if callee.kind ≠ .function then
    misuse (.notCallable callee.name)
  let groups ← args.mapM (callGroup id)
  let outputs := ((args.zip groups).filter (·.1.output)).map (·.2)
  let inputs := ((args.zip groups).filter (!·.1.output)).map (·.2)
  pushInstruction .callTape .base 1 (callOperands id inputs outputs)
  let node ← activeNode
  discard <| onTree (·.addGroup node .sum [callee.root])
  addCallee id callee.bitLengths

end BuildM

end SecureTape
