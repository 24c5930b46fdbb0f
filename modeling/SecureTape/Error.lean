import SecureTape.Handle
import SecureTape.Heap.Basic
import SecureTape.Machine.Opcode
import SecureTape.Machine.OperandFault
import SecureTape.Options

/-!
# Compile errors

Every way in which building or finishing a program can fail, as causes, and the wording of each.
An error is about the structure of the program, about a resource that ran out, or about a wrong
use of the builder.
-/

namespace SecureTape

inductive LinkFlaw where
  | view
  | classes
  | sizes
  deriving Repr, DecidableEq

def LinkFlaw.message : LinkFlaw → String
  | .view => "vector views cannot be linked"
  | .classes => "register classes differ"
  | .sizes => "sizes differ"

inductive MacroFlaw where
  | argumentCount (expected actual : Nat)
  | argumentClass (expected actual : RegisterClass)
  | argumentSizes
  | notVectorizable (opcode : Opcode)
  | readBeforeWrite (register : String)
  | createsTapes
  | severalBlocks
  deriving Repr, DecidableEq

def MacroFlaw.message : MacroFlaw → String
  | .argumentCount expected actual => s!"expects {expected} arguments, got {actual}"
  | .argumentClass expected actual =>
    s!"expected {expected.letters} argument, found {actual.letters}"
  | .argumentSizes => "arguments differ in size"
  | .notVectorizable opcode => s!"{opcode.name} cannot be vectorized"
  | .readBeforeWrite register => s!"reads {register} before writing it"
  | .createsTapes => "macro bodies cannot create tapes"
  | .severalBlocks => "body must be a single basic block"

inductive ScopeKind where
  | loop
  | range
  | branch
  | alternative
  | function
  deriving Repr, DecidableEq

def ScopeKind.name : ScopeKind → String
  | .loop => "loop"
  | .range => "range"
  | .branch => "if"
  | .alternative => "else"
  | .function => "function"

inductive ConstructionFault where
  | invalidOperand (opcode : Opcode) (position : Nat) (fault : OperandFault)
  | operandCount (opcode : Opcode) (actual : Nat)
  | noExtensionForm (opcode : Opcode)
  | vectorTooLarge (size max : Nat)
  | emptyVector
  | viewOutOfRange (start size total : Nat)
  | loopBoundTooLarge
  | unclosedScope (tape : String) (kind : ScopeKind)
  | scopeMismatch (innermost : Option ScopeKind) (closing : ScopeKind)
  | emptyLoop
  | blockClosed (tape : String) (block : BlockId)
  | doubleWrite (register : String)
  | jumpToSelf (block : BlockId)
  | unresolvedJump (block : BlockId)
  | invalidLink (first second : String) (flaw : LinkFlaw)
  | invalidMacro (name : String) (flaw : MacroFlaw)
  | bitLengthTooLarge (requested available : Nat)
  | bitLengthChanged (current requested : Nat)
  | zeroAllocation
  | tapeFinalized (tape : String)
  deriving Repr, DecidableEq

def ConstructionFault.message : ConstructionFault → String
  | .invalidOperand opcode position fault =>
    s!"operand {position} of {opcode.name}: {fault.message}"
  | .operandCount opcode actual =>
    s!"{opcode.name} takes {opcode.layout.arity} operands, got {actual}"
  | .noExtensionForm opcode => s!"{opcode.name} has no field-extension form"
  | .vectorTooLarge size max => s!"vector size {size} exceeds maximum {max}"
  | .emptyVector => "vector size must be positive"
  | .viewOutOfRange start size total =>
    s!"sub-vector [{start}, {start}+{size}) outside register of size {total}"
  | .loopBoundTooLarge => "loop bound must be known at compile time"
  | .unclosedScope tape kind => s!"unclosed {kind.name} scope in tape {tape}"
  | .scopeMismatch innermost closing =>
    "closing " ++ closing.name ++ " scope while " ++ (innermost.map (·.name)).getD "no" ++
      " scope is innermost"
  | .emptyLoop => "loop must run at least once"
  | .blockClosed tape block => s!"block {block} of tape {tape} no longer accepts instructions"
  | .doubleWrite register => s!"register {register} written twice"
  | .jumpToSelf block => s!"jump at the end of block {block} targets itself"
  | .unresolvedJump block => s!"jump at the end of block {block} has no target"
  | .invalidLink first second flaw => s!"cannot link {first} and {second}: {flaw.message}"
  | .invalidMacro name flaw => s!"macro {name}: {flaw.message}"
  | .bitLengthTooLarge requested available =>
    s!"required bit length {requested} too large for {available}-bit prime"
  | .bitLengthChanged current requested =>
    s!"extension bit length already set to {current}, cannot change to {requested}"
  | .zeroAllocation => "zero-sized memory allocation"
  | .tapeFinalized tape => s!"tape {tape} has already been finalized"

inductive UsageFault where
  | foreignPool (addr : Nat) (cls : RegisterClass)
  | unknownAddress (addr : Nat) (cls : RegisterClass)
  | unknownThread (thread : Nat)
  | nestedSpawn
  | singularTapeTwice (tape : String)
  | notRunnable (tape : String)
  | notCallable (tape : String)
  | unknownTape (tape : TapeId)
  | crossTapeRegister (register : Reg)
  | notAParameter (register : Reg) (tape : String)
  | noRunningThreads
  | linkWithoutReallocation
  deriving Repr, DecidableEq

def UsageFault.message : UsageFault → String
  | .foreignPool addr cls =>
    s!"cannot free {cls.letters} memory at {addr} across function blocks"
  | .unknownAddress addr cls => s!"no {cls.letters} allocation at {addr}"
  | .unknownThread thread => s!"thread {thread} is not running"
  | .nestedSpawn => "threads can only be spawned from the main tape"
  | .singularTapeTwice tape => s!"single-thread tape {tape} cannot run twice in parallel"
  | .notRunnable tape => s!"tape {tape} cannot be run as a thread"
  | .notCallable tape => s!"tape {tape} is not a function tape"
  | .unknownTape tape => s!"unknown tape {tape}"
  | .crossTapeRegister register => s!"register {register.debugText} belongs to another tape"
  | .notAParameter register tape =>
    s!"register {register.debugText} is not a parameter of tape {tape}"
  | .noRunningThreads => "cannot allocate memory outside the main thread without running threads"
  | .linkWithoutReallocation => "linking registers requires reallocation"

inductive LimitedResource where
  | registers
  | memory
  deriving Repr, DecidableEq

def LimitedResource.name : LimitedResource → String
  | .registers => "register"
  | .memory => "memory"

inductive CompileError where
  | construction (fault : ConstructionFault)
  | exhausted (resource : LimitedResource) (cls : RegisterClass) (attempted limit : Nat)
  | usage (fault : UsageFault)
  | operand (fault : OperandFault)
  | options (fault : OptionFault)
  deriving Repr, DecidableEq

namespace CompileError

def message : CompileError → String
  | .construction fault => "Construction error: " ++ fault.message
  | .exhausted resource cls attempted limit =>
    s!"{resource.name} allocation exceeded for {cls.letters}: {attempted} > {limit}"
  | .usage fault => "Usage error: " ++ fault.message
  | .operand fault => "Spec error: " ++ fault.report
  | .options fault => "Configuration error: " ++ fault.message

def ofHeapFault : HeapFault → CompileError
  | .zeroSize => .construction .zeroAllocation
  | .exhausted cls attempted limit => .exhausted .memory cls attempted limit
  | .unknownAddress cls addr => .usage (.unknownAddress addr cls)
  | .foreignPool cls addr => .usage (.foreignPool addr cls)

end CompileError

end SecureTape
