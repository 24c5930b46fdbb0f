import SecureTape.Proofs.Compilation
import SecureTape.Proofs.ControlActions
import SecureTape.Proofs.Templates

/-!
# Programs that can be built

1. `BuildM.Api`: the actions that build and compile a program, and what is composed of them.
2. `BuildM.Api.lawful`: from a coherent program every such action leads to one that the program
   evolves to.
3. `Program.Reachable.coherent`: what such actions make of a new program is coherent.
-/

namespace SecureTape

open Action RegisterFile Program

namespace BuildM

variable {α β : Type}

/-- The actions that build and compile a program. An action that follows another may depend on its
answer and on the whole program, and it may go on after a failure. -/
inductive Api : {α : Type} → BuildM α → Prop
  | pure {α : Type} (a : α) : Api (Pure.pure a)
  | throw {α : Type} (e : CompileError) : Api (MonadExcept.throw e : BuildM α)
  | get : Api MonadState.get
  | bind {α β : Type} {act : BuildM α} {k : α → BuildM β} (h : Api act) (hk : ∀ a, Api (k a)) :
      Api (act >>= k)
  | attempt {α : Type} {act : BuildM α} (h : Api act) : Api (attempt act)
  | withVectorSize {α : Type} (size : Nat) {act : BuildM α} (h : Api act) :
      Api (withVectorSize size act)
  | withDomain {α : Type} (domain : FieldDomain) {act : BuildM α} (h : Api act) :
      Api (withDomain domain act)
  | setPolicy (policy : MacroPolicy) : Api (modify ({ · with policy }))
  | registerInfo (r : Reg) : Api (registerInfo r)
  | createRegister (cls : RegisterClass) (size : Nat) : Api (createRegister cls size)
  | newVector (cls : RegisterClass) (size : Nat) : Api (newVector cls size)
  | newInteger : Api newInteger
  | view (r : Reg) (start size : Nat) : Api (view r start size)
  | link (a b : Reg) : Api (link a b)
  | emit (opcode : Opcode) (operands : List Operand) : Api (emit opcode operands)
  | pushInstruction (opcode : Opcode) (domain : FieldDomain) (size : Nat)
      (operands : List Operand) : Api (pushInstruction opcode domain size operands)
  | callMacro {body : MacroBody} (h : ∀ args, Api (body.build args)) (args : List Reg) :
      Api (callMacro body args)
  | openLoop (times : Count) (counter : Option (Reg × Nat)) : Api (openLoop times counter)
  | endLoop (cond : Reg) : Api (endLoop cond)
  | beginIf (cond : Reg) : Api (beginIf cond)
  | beginElse : Api beginElse
  | endIf : Api endIf
  | beginFunction : Api beginFunction
  | endFunction : Api endFunction
  | newTape {α : Type} (name : String) (options : ThreadOptions) {body : BuildM α} (h : Api body) :
      Api (newTape name options body)
  | newFunction {α : Type} (name : String) {body : BuildM α} (h : Api body) :
      Api (newFunction name body)
  | tapeParameter (cls : RegisterClass) (size : Nat) : Api (tapeParameter cls size)
  | runTapes (starts : List ThreadStart) : Api (runTapes starts)
  | joinTapes (threads : List Nat) : Api (joinTapes threads)
  | callTape (id : TapeId) (args : List CallArgument) : Api (callTape id args)
  | malloc (cls : RegisterClass) (size : Nat) : Api (malloc cls size)
  | free (cls : RegisterClass) (addr : Nat) : Api (free cls addr)
  | flushMemory : Api flushMemory
  | threadAddress (base stride : Nat) : Api (threadAddress base stride)
  | incrementRequirement (r : Resource) (n : Count) : Api (incrementRequirement r n)
  | requireBitLength (bits : Nat) (domain : FieldDomain) : Api (requireBitLength bits domain)
  | requirements (id : TapeId) : Api (requirements id)
  | closeMain : Api closeMain
  | scheduleTape (id : TapeId) : Api (scheduleTape id)
  | ensureAllocated (id : TapeId) : Api (ensureAllocated id)
  | finalizeTape (id : TapeId) : Api (finalizeTape id)
  | finish : Api finish

theorem Api.lawful {act : BuildM α} (h : Api act) : Lawful act := by
  induction h with
  | pure a => exact .pure a
  | throw e => exact .throw e
  | get => exact .get
  | bind _ _ ih ihk => exact ih.bind ihk
  | attempt _ ih => exact ih.attempt
  | withVectorSize size _ ih => exact lawful_withVectorSize size ih
  | withDomain domain _ ih => exact lawful_withDomain domain ih
  | setPolicy policy => exact lawful_modify fun _ => rfl
  | registerInfo r => exact lawful_registerInfo r
  | createRegister cls size => exact lawful_createRegister cls size
  | newVector cls size => exact lawful_newVector cls size
  | newInteger => exact lawful_newInteger
  | view r start size => exact lawful_view r start size
  | link a b => exact lawful_link a b
  | emit opcode operands => exact lawful_emit opcode operands
  | pushInstruction opcode domain size operands =>
    exact lawful_pushInstruction opcode domain size operands
  | callMacro _ args ih => exact lawful_callMacro ih args
  | openLoop times counter => exact lawful_openLoop times counter
  | endLoop cond => exact lawful_endLoop cond
  | beginIf cond => exact lawful_beginIf cond
  | beginElse => exact lawful_beginElse
  | endIf => exact lawful_endIf
  | beginFunction => exact lawful_beginFunction
  | endFunction => exact lawful_endFunction
  | newTape name options _ ih => exact lawful_newTape name options ih
  | newFunction name _ ih => exact lawful_newFunction name ih
  | tapeParameter cls size => exact lawful_tapeParameter cls size
  | runTapes starts => exact lawful_runTapes starts
  | joinTapes threads => exact lawful_joinTapes threads
  | callTape id args => exact lawful_callTape id args
  | malloc cls size => exact lawful_malloc cls size
  | free cls addr => exact lawful_free cls addr
  | flushMemory => exact lawful_flushMemory
  | threadAddress base stride => exact lawful_threadAddress base stride
  | incrementRequirement r n => exact lawful_incrementRequirement r n
  | requireBitLength bits domain => exact lawful_requireBitLength bits domain
  | requirements id => exact lawful_requirements id
  | closeMain => exact lawful_closeMain
  | scheduleTape id => exact lawful_scheduleTape id
  | ensureAllocated id => exact lawful_ensureAllocated id
  | finalizeTape id => exact lawful_finalizeTape id
  | finish => exact lawful_finish

/-! Some actions that are composed of these. -/

theorem Api.loadInt (dest : Reg) (value : Int) : (loadInt dest value).Api := .emit ..

theorem Api.storeMemory (src : Reg) (addr : Nat) : (storeMemory src addr).Api :=
  .bind (.bind (.registerInfo src) fun _ => .pure _) fun _ => .emit ..

end BuildM

namespace Program

variable {p : Program}

/-- The program is what actions made of a new one; the last of them may have failed. -/
def Reachable (p : Program) : Prop :=
  ∃ (name : String) (options : Options) (start : Program) (α : Type) (act : BuildM α),
    Program.new name options = .ok start ∧ act.Api ∧ (act.run start).2 = p

/-- What an action makes of a new program with the usual options. -/
def builtBy {α : Type} (act : BuildM α) : Program :=
  match Program.new "main" {} with
  | .ok start => (act.run start).2
  | .error _ => default

theorem reachable_builtBy {α : Type} {act : BuildM α} (h : act.Api) : (builtBy act).Reachable :=
  ⟨"main", {}, _, α, act, rfl, h, rfl⟩

theorem coherent_of_new {name : String} {options : Options} (h : Program.new name options = .ok p) :
    p.Coherent := by
  unfold Program.new at h
  split at h
  · cases h
  · cases h
    have hsound := Tape.Sound.new mainTape name .main true (RequirementTree.empty.addNode name).1
    have hmain {id : TapeId} (hid : id < 1) : id = mainTape := Nat.lt_one_iff.1 hid
    refine ⟨Nat.zero_lt_one, ?_, ?_, nofun, ?_⟩
    · intro id hid
      rw [hmain hid]
      exact hsound
    · intro id hid
      rw [hmain hid]
      rfl
    · intro id c hid hc
      rw [hmain hid] at hc
      exact (Tape.not_calls_new hc).elim

theorem Reachable.coherent (h : p.Reachable) : p.Coherent := by
  obtain ⟨name, options, start, α, act, hnew, hact, rfl⟩ := h
  exact (hact.lawful start (coherent_of_new hnew)).ends.coherent

end Program

end SecureTape
