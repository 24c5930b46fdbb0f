import SecureTape.Program.Emit

/-!
# Structured control flow

Loops, branches and function scopes cut a tape into blocks. Each opens a scope, and the block that
ends it fills in the jumps. A loop multiplies what its body requires, and a branch takes the larger
of its two sides.
-/

namespace SecureTape.BuildM

/-- Check that a register can decide a jump: it is a single integer. -/
def checkCondition (opcode : Opcode) (cond : Reg) : BuildM Unit := do
  let (cls, size) ← registerInfo cond
  if cls ≠ .int then
    reject (.invalidOperand opcode 0 (.wrongClass .int cls))
  if size ≠ 1 then
    reject (.invalidOperand opcode 0 (.wrongSize 1 size))

def scopeMismatch {α : Type} (scopes : List Scope) (closing : ScopeKind) : BuildM α :=
  reject (.scopeMismatch (scopes.head?.map (·.kind)) closing)

def pushScope (scope : Scope) : BuildM Unit :=
  modifyCurrent fun t => { t with scopes := scope :: t.scopes }

def popScope : BuildM Unit :=
  modifyCurrent fun t => { t with scopes := t.scopes.tail }

def openLoop (times : Count) (counter : Option (Reg × Nat)) : BuildM Unit := do
  let outer ← activeNode
  let node ← onTree (·.addScope outer "loop" (.times times))
  let entry := (← building).active
  let start ← startBlock "begin-loop" (some entry) none node
  pushScope (.loop start entry outer counter)

def beginLoop (times : Count) : BuildM Unit := openLoop times none

/-- End a loop: go back to its start while `cond` is not zero. -/
def endLoop (cond : Reg) : BuildM Unit := do
  checkCondition .jmpnz cond
  let t ← building
  match t.scopes with
  | .loop start entry outer _ :: _ =>
    popScope
    discard <| startBlock "end-loop" (some entry) (some ⟨.ifNonZero cond, some start⟩) outer
  | scopes => scopeMismatch scopes .loop

/-- Start a loop that counts from 0 to `n - 1`; the answer is the counter. -/
def beginRange (n : Nat) : BuildM Reg := do
  if n = 0 then
    reject .emptyLoop
  let counter ← newRegister .int
  loadInt counter 0
  openLoop (.finite n) (some (counter, n))
  return counter

/-- End a counting loop: add one to the counter, and go back while it is below the bound. The
counter is carried over by sharing its slot, or by a copy where slots are not shared. -/
def endRange : BuildM Unit := do
  match (← get).currentTape.scopes with
  | .loop _ _ _ (some (counter, n)) :: _ =>
    let one ← newRegister .int
    let next ← newRegister .int
    let bound ← newRegister .int
    let cond ← newRegister .int
    loadInt one 1
    addInt next counter one
    if Nat.pow 2 63 ≤ n then
      reject .loopBoundTooLarge
    loadInt bound n
    lessThan cond next bound
    if (← get).options.reallocate then
      link counter next
    else
      pushInstruction .movint .base 1 [counter, next]
    endLoop cond
  | scopes => scopeMismatch scopes .range

def beginIf (cond : Reg) : BuildM Unit := do
  checkCondition .jmpeqz cond
  let outer ← activeNode
  let node ← onTree (·.addNode "if")
  let group ← onTree (·.addGroup outer .max [node])
  let block := (← building).active
  discard <| startBlock "if-block" (some block) (some ⟨.ifZero cond, none⟩) node
  pushScope (.branch block group outer none)

def beginElse : BuildM Unit := do
  let t ← building
  match t.scopes with
  | .branch cond group outer none :: _ =>
    let thenEnd := t.active
    let node ← onTree (·.addNode "else")
    onTree fun tree => ((), tree.extendGroup outer group node)
    let block ← startBlock "else-block" (some cond) (some ⟨.always, none⟩) node
    modifyCurrent fun t => t.modifyBlock cond (·.setTarget block)
    popScope
    pushScope (.branch cond group outer (some thenEnd))
  | scopes => scopeMismatch scopes .alternative

def endIf : BuildM Unit := do
  let t ← building
  match t.scopes with
  | .branch cond _ outer thenEnd :: _ =>
    popScope
    let block ← startBlock "end-if" (some cond) none outer
    modifyCurrent fun t => t.modifyBlock (thenEnd.getD cond) (·.setTarget block)
  | scopes => scopeMismatch scopes .branch

/-- Start a function: a block with an allocation pool of its own. -/
def beginFunction : BuildM Unit := do
  let t ← building
  let outer := t.activeBlock.node
  discard <| startBlock "function" none none outer
  pushScope (.function t.active outer)

def endFunction : BuildM Unit := do
  let t ← building
  match t.scopes with
  | .function entry outer :: _ =>
    popScope
    discard <| startBlock "end-function" (some entry) none outer
  | scopes => scopeMismatch scopes .function

end SecureTape.BuildM
