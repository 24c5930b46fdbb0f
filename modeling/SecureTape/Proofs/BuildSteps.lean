import SecureTape.Proofs.Arrangements
import SecureTape.Proofs.BlockGraphs

/-!
# Steps of building a program

What the actions that build a program do to its tapes and to the requirement tree, step by step.
Main statements:
1. `BuildM.Follows`: the actions that keep to rules; the bodies of macros have rules of their own.
2. `Program.Tracked`: the properties that every step maintains. They may depend on the tapes of
   macro bodies that are being built.
3. `BuildM.Follows.maintains`: actions that follow the rules maintain a tracked property.
-/

open SecureTape.Action

namespace SecureTape

open List

open Program RegisterFile

variable {t : Template} {width : Nat} {f g : RegisterFile} {code : List Instruction} {ops : List Op}
  {p q : Program} {I : List TapeId → Program → Prop} {opcode : Opcode} {id : TapeId}
  {body : MacroBody} {inner outer r : Rules} {floors : List TapeId}

theorem Action.Maintains.bind_into {σ α β : Type} {J K : σ → Prop} {act : Action σ α}
    {k : α → Action σ β} (h : Maintains J act) (himp : ∀ s, J s → K s)
    (hk : ∀ a s, J s → K ((k a).run s).2) {s : σ} (hs : J s) : K ((act >>= k).run s).2 := by
  have hact := h s hs
  refine run_bind_cases K (fun e t hrun => ?_) fun a t hrun => ?_
  · rw [hrun] at hact
    exact himp t hact
  · rw [hrun] at hact
    exact hk a t hact

/-! ## Rules -/

/-- What actions may do that build a program. -/
structure Rules where
  /-- Append an instruction that calls a tape, as it is. -/
  bareCalls : Prop
  /-- Run and call tapes. -/
  calls : Prop
  /-- Declare that a loop runs so often. -/
  loops : Count → Prop
  /-- Finalize a tape. -/
  finals : Prop
  /-- Schedule or allocate a single tape, or finish the program. -/
  stages : Prop

/-- What the rules say about the actions on blocks. -/
def Rules.Permits (r : Rules) : BuildM.Control → Prop
  | .openLoop times _ => r.loops times
  | .callTape _ => r.calls
  | .runTapes _ => r.calls
  | _ => True

namespace BuildM

/-- The actions that build and compile a program, as far as the rules allow; the bodies of macros
follow the rules `inner`. -/
inductive Follows (inner : Rules) : Rules → {α : Type} → BuildM α → Prop
  | pure {r : Rules} {α : Type} (a : α) : Follows inner r (Pure.pure a)
  | throw {r : Rules} {α : Type} (e : CompileError) : Follows inner r (MonadExcept.throw e : BuildM α)
  | get {r : Rules} : Follows inner r MonadState.get
  | bind {r : Rules} {α β : Type} {act : BuildM α} {k : α → BuildM β} (h : Follows inner r act)
      (hk : ∀ a, Follows inner r (k a)) : Follows inner r (act >>= k)
  | attempt {r : Rules} {α : Type} {act : BuildM α} (h : Follows inner r act) :
      Follows inner r (attempt act)
  | withVectorSize {r : Rules} {α : Type} (size : Nat) {act : BuildM α} (h : Follows inner r act) :
      Follows inner r (withVectorSize size act)
  | withDomain {r : Rules} {α : Type} (domain : FieldDomain) {act : BuildM α}
      (h : Follows inner r act) : Follows inner r (withDomain domain act)
  | setPolicy {r : Rules} (policy : MacroPolicy) : Follows inner r (modify ({ · with policy }))
  | registerInfo {r : Rules} (reg : Reg) : Follows inner r (registerInfo reg)
  | createRegister {r : Rules} (cls : RegisterClass) (size : Nat) :
      Follows inner r (createRegister cls size)
  | newVector {r : Rules} (cls : RegisterClass) (size : Nat) : Follows inner r (newVector cls size)
  | newInteger {r : Rules} : Follows inner r newInteger
  | view {r : Rules} (reg : Reg) (start size : Nat) : Follows inner r (view reg start size)
  | link {r : Rules} (a b : Reg) : Follows inner r (link a b)
  | emit {r : Rules} {opcode : Opcode} (h : r.bareCalls ∨ opcode ≠ .callTape)
      (operands : List Operand) : Follows inner r (emit opcode operands)
  | pushInstruction {r : Rules} {opcode : Opcode} (h : r.bareCalls ∨ opcode ≠ .callTape)
      (domain : FieldDomain) (size : Nat) (operands : List Operand) :
      Follows inner r (pushInstruction opcode domain size operands)
  | callMacro {r : Rules} {body : MacroBody} (h : ∀ args, Follows inner inner (body.build args))
      (args : List Reg) : Follows inner r (callMacro body args)
  | openLoop {r : Rules} {times : Count} (h : r.loops times) (counter : Option (Reg × Nat)) :
      Follows inner r (openLoop times counter)
  | endLoop {r : Rules} (cond : Reg) : Follows inner r (endLoop cond)
  | beginIf {r : Rules} (cond : Reg) : Follows inner r (beginIf cond)
  | beginElse {r : Rules} : Follows inner r beginElse
  | endIf {r : Rules} : Follows inner r endIf
  | beginFunction {r : Rules} : Follows inner r beginFunction
  | endFunction {r : Rules} : Follows inner r endFunction
  | newTape {r : Rules} {α : Type} (name : String) (options : ThreadOptions) {body : BuildM α}
      (h : Follows inner r body) : Follows inner r (newTape name options body)
  | newFunction {r : Rules} {α : Type} (name : String) {body : BuildM α} (h : Follows inner r body) :
      Follows inner r (newFunction name body)
  | tapeParameter {r : Rules} (cls : RegisterClass) (size : Nat) :
      Follows inner r (tapeParameter cls size)
  | runTapes {r : Rules} (h : r.calls) (starts : List ThreadStart) : Follows inner r (runTapes starts)
  | joinTapes {r : Rules} (threads : List Nat) : Follows inner r (joinTapes threads)
  | callTape {r : Rules} (h : r.calls) (id : TapeId) (args : List CallArgument) :
      Follows inner r (callTape id args)
  | malloc {r : Rules} (cls : RegisterClass) (size : Nat) : Follows inner r (malloc cls size)
  | free {r : Rules} (cls : RegisterClass) (addr : Nat) : Follows inner r (free cls addr)
  | flushMemory {r : Rules} : Follows inner r flushMemory
  | threadAddress {r : Rules} (base stride : Nat) : Follows inner r (threadAddress base stride)
  | incrementRequirement {r : Rules} (resource : Resource) (n : Count) :
      Follows inner r (incrementRequirement resource n)
  | requireBitLength {r : Rules} (bits : Nat) (domain : FieldDomain) :
      Follows inner r (requireBitLength bits domain)
  | requirements {r : Rules} (id : TapeId) : Follows inner r (requirements id)
  | closeMain {r : Rules} (h : r.stages) : Follows inner r closeMain
  | scheduleTape {r : Rules} (h : r.stages) (id : TapeId) : Follows inner r (scheduleTape id)
  | ensureAllocated {r : Rules} (h : r.stages) (id : TapeId) : Follows inner r (ensureAllocated id)
  | finalizeTape {r : Rules} (h : r.finals) (id : TapeId) : Follows inner r (finalizeTape id)
  | finish {r : Rules} (h : r.stages) : Follows inner r finish

variable {α : Type}

theorem Follows.api {act : BuildM α} (h : Follows inner r act) : act.Api := by
  -- Each constructor has one of the same name among the interface's calls.
  induction h with
  | _ => with_reducible constructor <;> assumption

end BuildM

/-! ## Opcodes of templates -/

/-- The operation is an instruction with the opcode, or a macro call that is expanded to one. -/
def Op.Emits (op : Op) (opcode : Opcode) : Prop :=
  match op with
  | .inst i => i.opcode = opcode
  | .call c => ∃ i ∈ c.template.instructions, i.opcode = opcode

/-- The instructions of the template come from the operations of the first block of the tape. -/
def Tape.Condenses (tape : Tape) (t : Template) : Prop :=
  ∀ i ∈ t.instructions, ∃ op ∈ (tape.block 0).ops, op.Emits i.opcode

theorem Template.opcode_of_mem_expandFrom {is : List Instruction} {map : Renaming}
    (h : (t.expandFrom width is map).run f = (.ok code, g)) :
    ∀ j ∈ code, ∃ i ∈ is, i.opcode = j.opcode := by
  induction is generalizing map f code with
  | nil =>
    cases h
    exact fun _ => nofun
  | cons i is ih =>
    unfold expandFrom at h
    simp only [] at h
    split at h
    · cases h
    · obtain ⟨⟨operands, map'⟩, f₁, -, h⟩ := of_run_bind_ok h
      obtain ⟨image, f₂, himage, h⟩ := of_run_bind_ok h
      obtain ⟨rest, f₃, hrest, h⟩ := of_run_bind_ok h
      cases h
      obtain ⟨-, -, -, -, -, rfl⟩ := Instruction.of_make_eq_ok (congrArg Prod.fst himage)
      rintro j hj
      rcases mem_cons.1 hj with rfl | hj
      · exact ⟨i, .head _, rfl⟩
      · obtain ⟨i', hi', hop⟩ := ih hrest j hj
        exact ⟨i', .tail _ hi', hop⟩

theorem Template.opcode_of_mem_expand {args : List Reg}
    (h : (t.expand args width).run f = (.ok code, g)) :
    ∀ j ∈ code, ∃ i ∈ t.instructions, i.opcode = j.opcode := by
  unfold expand at h
  simp only [] at h
  split at h
  · cases h
  · exact opcode_of_mem_expandFrom h

theorem Op.emits_absorb_iff (a b : Op) : (a.absorb b).Emits opcode ↔ a.Emits opcode := by
  cases a <;> cases b <;> exact .rfl

theorem Op.emits_of_gather? {m : Op} (h : gather? ops = some m) (hm : m.Emits opcode) :
    ∃ op ∈ ops, op.Emits opcode := by
  cases ops with
  | nil => cases h
  | cons op rest =>
    cases h
    refine ⟨op, .head _, ?_⟩
    induction rest generalizing op with
    | nil => exact hm
    | cons o rest ih => exact (emits_absorb_iff op o).1 (ih _ hm)

theorem emits_of_mem_optimize {regs : RegisterFile} {options : MergeOptions} {liveOut : List Nat}
    {m : Op} (h : m ∈ (optimize regs options liveOut ops).1) (hm : m.Emits opcode) :
    ∃ op ∈ ops, op.Emits opcode := by
  obtain ⟨us, harranges, -⟩ := exists_arranges_optimize regs options liveOut ops
  obtain ⟨u, -, hgather⟩ := exists_left_of_forall₂ harranges.gathered h
  obtain ⟨op, hop, hemits⟩ := Op.emits_of_gather? hgather hm
  obtain ⟨x, -, hx⟩ := mem_filterMap.1 hop
  exact ⟨op, mem_of_getElem? hx, hemits⟩

namespace BuildM

theorem emits_of_mem_expandBody {extra extra' : Tally} {out : List Op}
    (h : (expandBody ops extra).run f = (.ok (out, extra'), g)) :
    ∀ o ∈ out, o.Emits opcode → ∃ op ∈ ops, op.Emits opcode := by
  induction ops generalizing extra extra' f g out with
  | nil =>
    cases h
    exact fun _ => nofun
  | cons op ops ih =>
    have hrest {extra extra' : Tally} {f g : RegisterFile} {out : List Op}
        (h : (expandBody ops extra).run f = (.ok (out, extra'), g)) (o : Op) (ho : o ∈ out)
        (hemits : o.Emits opcode) : ∃ o ∈ op :: ops, o.Emits opcode := by
      obtain ⟨o, ho, hemits⟩ := ih h o ho hemits
      exact ⟨o, .tail _ ho, hemits⟩
    cases op with
    | inst j =>
      obtain ⟨⟨out', extra₁⟩, f₁, hbody, h⟩ := of_run_bind_ok h
      cases h
      exact forall_mem_cons.2 ⟨fun hemits => ⟨.inst j, .head _, hemits⟩, hrest hbody⟩
    | call c =>
      obtain ⟨expanded, f₁, hsites, h⟩ := of_run_bind_ok h
      obtain ⟨⟨out', extra₁⟩, f₂, hbody, h⟩ := of_run_bind_ok h
      cases h
      have hcode {sites : List CallSite} {f g : RegisterFile} {codes : List (List Instruction)}
          (h : (sites.mapM fun site => c.template.expand site.args site.width).run f = (.ok codes, g)) :
          ∀ i ∈ codes.flatten, ∃ i' ∈ c.template.instructions, i'.opcode = i.opcode := by
        induction sites generalizing f codes with
        | nil =>
          cases h
          exact fun _ => nofun
        | cons site sites ihs =>
          rw [mapM_cons] at h
          obtain ⟨code, f₁, hsite, h⟩ := of_run_bind_ok h
          obtain ⟨codes', f₂, hrest, h⟩ := of_run_bind_ok h
          cases h
          exact forall_mem_append.2 ⟨Template.opcode_of_mem_expand hsite, ihs hrest⟩
      refine forall_mem_append.2 ⟨forall_mem_map.2 fun i hi hemits => ?_, hrest hbody⟩
      cases hemits
      exact ⟨.call c, .head _, hcode hsites i hi⟩

theorem condenses_of_run_finishTemplate {key : MacroKey} {signature : MacroSignature}
    {params : List Reg} {tape : Tape}
    (h : (finishTemplate key signature params tape).run p = (.ok t, q)) : tape.Condenses t := by
  unfold finishTemplate at h
  simp only [] at h
  split at h
  · cases h
  · obtain ⟨own, p₁, -, h⟩ := of_run_bind_ok h
    obtain ⟨⟨ops, extra⟩, p₂, hbody, h⟩ := of_run_bind_ok h
    obtain ⟨p₃, p₄, -, h⟩ := of_run_bind_ok h
    cases h
    intro i hi
    obtain ⟨op, hop, hinst⟩ := mem_filterMap.1 hi
    cases op with
    | call c => cases hinst
    | inst j =>
      cases hinst
      obtain ⟨o, ho, hemits⟩ := emits_of_mem_optimize hop rfl
      exact emits_of_mem_expandBody (run_eq_of_fst (congrArg Prod.fst hbody)) o ho hemits

/-! ## Steps -/

/-- What holds of a program while it is built: it is coherent, the blocks of its tapes are well
formed, and the property holds. -/
def Sane (I : Program → Prop) (p : Program) : Prop := p.Coherent ∧ p.Graphs ∧ I p

theorem Sane.evolves {I : Program → Prop} (h : Sane I p) (hpq : Evolves p q) (hq : I q) :
    Sane I q :=
  ⟨hpq.coherent, hpq.graphs h.2.1, hq⟩

end BuildM

namespace Program

/-- The rules `inner` hold everywhere, and the rules `outer` outside of macro bodies. -/
def Allows (outer inner : Rules) (floors : List TapeId) (r : Rules) : Prop :=
  r = inner ∨ r = outer ∧ floors = []

/-- What holds inside of macro bodies that are built on the tapes `floors`, the innermost first. The
program is sane, and the current tape is none of those that were there before. -/
structure Within (I : List TapeId → Program → Prop) (floors : List TapeId) (p : Program) : Prop where
  sane : BuildM.Sane (I floors) p
  floor : ∀ n ∈ floors, n ≤ p.current

/-- The property holds still after every step of an action that follows the rules. -/
structure Tracked (outer inner : Rules) (I : List TapeId → Program → Prop) : Prop where
  quiet : ∀ floors, Quiet (I floors)
  push : ∀ {floors : List TapeId} {p : Program} {r : Rules} {i : Instruction}, Within I floors p →
    Allows outer inner floors r → p.currentTape.isBuilding = true →
    (r.bareCalls ∨ i.opcode ≠ .callTape) →
    I floors (p.modifyTape p.current fun _ => p.currentTape.append (.inst i))
  pushCall : ∀ {floors : List TapeId} {p : Program} {c : MacroCall}, Within I floors p →
    p.currentTape.isBuilding = true → p.macros.lookup c.key = some c.template →
    I floors (p.modifyTape p.current fun _ => p.currentTape.append (.call c))
  advance : ∀ {floors : List TapeId} {p : Program} {r : Rules} {c : BuildM.Control}
    {t : Tape} {tree : RequirementTree}, Within I floors p → Allows outer inner floors r →
    p.currentTape.isBuilding = true → BuildM.Advance p c t tree → r.Permits c →
    I floors (p.replace t tree)
  sprout : ∀ {floors : List TapeId} {p : Program} (name : String), Within I floors p →
    I floors { p with tree := (p.tree.addNode name).2 }
  addTape : ∀ {floors : List TapeId} {p : Program} (name : String) {kind : TapeKind} (singular : Bool),
    Within I floors p → kind = .thread ∨ kind = .function → I floors { p with
      tree := (p.tree.addNode name).2
      tapes := p.tapes.push (Tape.new p.tapes.size name kind singular (p.tree.addNode name).1) }
  turn : ∀ {floors : List TapeId} {p : Program} {id : TapeId}, I floors p → id < p.tapes.size →
    (∀ n ∈ floors, n ≤ id) → I floors { p with current := id }
  enter : ∀ {floors : List TapeId} {p : Program} (name key : String) (regs : RegisterFile),
    Within I floors p → p.options.cacheMacros = true → I (p.tapes.size :: floors) { p with
      tree := (p.tree.addNode name).2
      tapes := p.tapes.push
        { Tape.new p.tapes.size key .template true (p.tree.addNode name).1 with regs }
      current := p.tapes.size }
  leave : ∀ {floors : List TapeId} {p : Program} {n before : TapeId} {macros : MacroCache},
    Within I (n :: floors) p → n < p.tapes.size → before < n → (∀ m ∈ floors, m ≤ before) →
    (∀ {key t}, macros.lookup key = some t →
      p.macros.lookup key = some t ∨ (p.tapeAt n).Condenses t) →
    I floors { p with tapes := p.tapes.take n, current := before, macros }

end Program

namespace Program

variable {α : Type}

namespace Within

theorem evolves (h : Within I floors p) (hpq : Evolves p q) (hq : I floors q) : Within I floors q :=
  ⟨h.sane.evolves hpq hq, hpq.current.symm ▸ h.floor⟩

theorem lt (h : Within I floors p) : p.current < p.tapes.size := h.sane.1.current_lt

end Within

theorem maintains_within {act : BuildM α} (hlawful : BuildM.Lawful act)
    (h : ∀ p, Within I floors p → I floors (act.run p).2) : Maintains (Within I floors) act :=
  fun p hp => hp.evolves (hlawful p hp.sane.1).ends (h p hp)

theorem within_of_maintains {act : BuildM α} (hact : act.Api) (h : Maintains (I floors) act) :
    Maintains (Within I floors) act :=
  maintains_within hact.lawful fun p hp => h p hp.sane.2.2

theorem modifyTape_eq_const (p : Program) (id : TapeId) (f : Tape → Tape) :
    p.modifyTape id f = p.modifyTape id fun _ => f (p.tapeAt id) := by
  unfold modifyTape
  congr 1
  refine Array.ext_getElem? fun i => ?_
  simp only [Array.getElem?_modify]
  split
  · rename_i heq
    subst heq
    cases ht : p.tapes[id]? with
    | none => rfl
    | some t => simp [tapeAt, Array.getD_eq_getD_getElem?, ht]
  · rfl

theorem modifyTape_id (p : Program) (id : TapeId) : p.modifyTape id (fun t => t) = p := by
  unfold modifyTape
  congr 1
  refine Array.ext_getElem? fun i => ?_
  simp only [Array.getElem?_modify]
  split
  · exact Option.map_id'
  · rfl

namespace Tracked

open BuildM

variable (hI : Tracked outer inner I)

include hI

theorem aside (h : Within I floors p) (hsame : SameWork p q) : Within I floors q :=
  h.evolves (h.sane.1.aside hsame.tapes hsame.options hsame.current hsame.templates
      fun h => hsame.macroTapes.symm ▸ h)
    ((hI.quiet floors).aside h.sane.2.2 hsame)

theorem modify {f : Program → Program} (hf : ∀ p, SameWork p (f p)) :
    Maintains (Within I floors) (modify f : BuildM PUnit) :=
  fun p h => hI.aside h (hf p)

section Rules

variable (hr : Allows outer inner floors r)

include hr

/-! ### Instructions and blocks -/

theorem pushInstruction (h : r.bareCalls ∨ opcode ≠ .callTape) (domain : FieldDomain) (size : Nat)
    (operands : List Operand) :
    Maintains (Within I floors) (BuildM.pushInstruction opcode domain size operands) := by
  refine maintains_within (lawful_pushInstruction opcode domain size operands) fun p hp => ?_
  rcases pushInstruction_cases p opcode domain size operands with ⟨e, hrun⟩ | ⟨i, hi, hb, hrun⟩
  · rw [hrun]
    exact hp.sane.2.2
  · rw [hrun]
    obtain ⟨-, -, -, -, -, rfl⟩ := Instruction.of_make_eq_ok hi
    exact hI.push hp hr hb h

theorem emit (h : r.bareCalls ∨ opcode ≠ .callTape) (operands : List Operand) :
    Maintains (Within I floors) (BuildM.emit opcode operands) := by
  refine .get_bind fun p => ?_
  simp only []
  split
  · exact ((reads_registerInfo _).map _).maintains.bind fun _ => hI.pushInstruction hr h _ _ _
  · exact (Reads.pure _).maintains.bind fun _ => hI.pushInstruction hr h _ _ _

theorem replaces {act : BuildM α} {c : Control} (hlawful : Lawful act)
    (h : ∀ p : Program, p.current < p.tapes.size → BuildM.Replaces act p (Advance p c))
    (hc : r.Permits c) : Maintains (Within I floors) act := by
  refine maintains_within hlawful fun p hp => ?_
  rcases h p hp.lt with ⟨e, hrun⟩ | ⟨hb, a, t, tree, hrun, ht⟩
  · rw [hrun]
    exact hp.sane.2.2
  · rw [hrun]
    exact hI.advance hp hr hb ht hc

theorem continueBlock (name : String) : Maintains (Within I floors) (BuildM.continueBlock name) := by
  refine maintains_within (lawful_continueBlock name) fun p hp => ?_
  refine reads_building.bind_cases (I floors) hp.sane.2.2 fun t ht => ?_
  obtain ⟨rfl, hb⟩ := of_run_building ht
  rw [run_startBlock hb]
  exact hI.advance hp hr hb (.next name) trivial

theorem joinTapes (threads : List Nat) : Maintains (Within I floors) (BuildM.joinTapes threads) := by
  have hrelease (thread : Nat) : Maintains (Within I floors) (MonadState.modifyGet fun p : Program =>
      (PUnit.unit, { p with threads := p.threads.release thread }) : BuildM PUnit) :=
    fun _ h => hI.aside h (.of_eq rfl)
  refine .get_bind fun p => ?_
  simp only []
  split
  · exact .throw_bind
  · refine (hI.continueBlock hr _).discard.bind fun _ => Maintains.bind ?_ fun _ =>
      (hI.continueBlock hr _).discard
    refine Maintains.forM (fun thread => ?_) threads
    refine (hI.pushInstruction hr (.inr (by decide)) _ _ _).bind fun _ => .get_bind fun q => ?_
    exact .ite _ .throw_bind (hrelease thread)

end Rules

/-! ### Threads -/

omit hI in
theorem reads_checkStarts (seen : List TapeId) (starts : List ThreadStart) :
    Reads (checkStarts seen starts) := by
  induction starts generalizing seen with
  | nil => exact .pure _
  | cons start rest ih =>
    refine (reads_tape _).bind fun t => ?_
    exact .ite _ .throw_bind (.ite _ .throw_bind ((ih _).bind fun _ => .pure _))

omit hI in
/-- The tapes are there to be run as threads, and have the given roots. -/
def Startable (ids : List TapeId) (roots : List NodeId) (p : Program) : Prop :=
  roots = ids.map (fun id => (p.tapeAt id).root) ∧
    ∀ id ∈ ids, id < p.tapes.size ∧ (p.tapeAt id).kind = .thread

omit hI in
theorem of_run_checkStarts_cons {seen : List TapeId} {start : ThreadStart} {rest : List ThreadStart}
    {roots : List NodeId} (h : (checkStarts seen (start :: rest)).run p = (.ok roots, q)) :
    start.tape < p.tapes.size ∧ (p.tapeAt start.tape).kind = .thread ∧
      ¬((p.tapeAt start.tape).singular ∧ start.tape ∈ seen) ∧ ∃ roots',
        (checkStarts (if (p.tapeAt start.tape).singular then start.tape :: seen else seen) rest).run p =
          (.ok roots', q) ∧ roots = (p.tapeAt start.tape).root :: roots' := by
  unfold checkStarts at h
  obtain ⟨t, p₁, htape, h⟩ := of_run_bind_ok h
  obtain ⟨hid, rfl⟩ := of_run_tape htape
  rw [(reads_tape _).run_eq htape] at h
  simp only [] at h
  split at h
  · cases h
  · rename_i hthread
    split at h
    · cases h
    · rename_i hseen
      obtain ⟨roots', p₂, hrest, hanswer⟩ := of_run_bind_ok h
      cases hanswer
      exact ⟨hid, Decidable.not_not.mp hthread, hseen, roots', hrest, rfl⟩

omit hI in
theorem startable_of_run_checkStarts {seen : List TapeId} {starts : List ThreadStart}
    {roots : List NodeId} (h : (checkStarts seen starts).run p = (.ok roots, q)) :
    Startable (starts.map (·.tape)) roots p := by
  induction starts generalizing seen roots with
  | nil =>
    cases h
    exact ⟨rfl, nofun⟩
  | cons start rest ih =>
    obtain ⟨hid, hthread, -, roots', hrest, rfl⟩ := of_run_checkStarts_cons h
    obtain ⟨rfl, hall⟩ := ih hrest
    exact ⟨rfl, forall_mem_cons.2 ⟨⟨hid, hthread⟩, hall⟩⟩

omit hI in
theorem Startable.modifyCurrent {ids : List TapeId} {roots : List NodeId} (h : Startable ids roots p)
    {f : Tape → Tape} (hroot : (f p.currentTape).root = p.currentTape.root)
    (hkind : (f p.currentTape).kind = p.currentTape.kind) :
    Startable ids roots (p.modifyTape p.current f) := by
  have hsame (id : TapeId) : ((p.modifyTape p.current f).tapeAt id).root = (p.tapeAt id).root ∧
      ((p.modifyTape p.current f).tapeAt id).kind = (p.tapeAt id).kind := by
    rw [tapeAt_modifyTape]
    split
    · rename_i hid
      rw [hid.1]
      exact ⟨hroot, hkind⟩
    · exact ⟨rfl, rfl⟩
  refine ⟨h.1.trans (map_congr_left fun id _ => (hsame id).1.symm), fun id hid => ?_⟩
  rw [size_modifyTape, (hsame id).2]
  exact h.2 id hid

omit hI in
theorem exists_run_addCallees (starts : List ThreadStart) (p : Program) :
    ∃ merge : BitLengths → BitLengths, (starts.forM fun start => do
        addCallee start.tape ((← get).tapeAt start.tape).bitLengths : BuildM PUnit).run p =
      (.ok ⟨⟩, p.modifyTape p.current fun t => { t with
        bitLengths := merge t.bitLengths, callees := t.callees ++ starts.map (·.tape) }) := by
  induction starts generalizing p with
  | nil =>
    refine ⟨fun bits => bits, ?_⟩
    simp only [map_nil, append_nil]
    rw [modifyTape_id]
    rfl
  | cons start rest ih =>
    let bits := (p.tapeAt start.tape).bitLengths
    obtain ⟨merge, hrest⟩ := ih (p.modifyTape p.current fun t =>
      { t with bitLengths := t.bitLengths.merge bits, callees := t.callees ++ [start.tape] })
    refine ⟨fun b => merge (b.merge bits), ?_⟩
    refine (run_bind_ok rfl _).trans (hrest.trans ?_)
    refine congrArg (Except.ok PUnit.unit, ·) ((modifyTape_modifyTape p p.current _ _).trans ?_)
    simp only [map_cons, append_assoc, singleton_append]

theorem runTapes (hr : Allows outer inner floors r) (h : r.calls) (starts : List ThreadStart) :
    Maintains (Within I floors) (BuildM.runTapes starts) := by
  let J (roots : List NodeId) (p : Program) : Prop :=
    Within I floors p ∧ Startable (starts.map (·.tape)) roots p
  have hacquire (roots : List NodeId) (starts : List ThreadStart) :
      Maintains (J roots) (starts.mapM fun start => acquireThread start.tape) := by
    have hone (id : TapeId) : Maintains (J roots) (acquireThread id) := fun p hp =>
      ⟨hI.aside hp.1 (.of_eq rfl), hp.2⟩
    induction starts with
    | nil => exact .pure _
    | cons start rest ih =>
      rw [mapM_cons]
      exact (hone _).bind fun _ => ih.bind fun _ => .pure _
  have hblock (roots : List NodeId) (name : String) :
      Maintains (J roots) (BuildM.continueBlock name) := by
    intro p hp
    refine ⟨hI.continueBlock hr name p hp.1, ?_⟩
    refine reads_building.bind_cases (Startable _ roots) hp.2 fun t ht => ?_
    obtain ⟨rfl, hb⟩ := of_run_building ht
    rw [run_startBlock hb]
    exact hp.2.modifyCurrent (Tape.root_startBlock ..) (Tape.kind_startBlock ..)
  have hpush (roots : List NodeId) (operands : List Operand) :
      Maintains (J roots) (BuildM.pushInstruction .runTape .base 1 operands) := by
    intro p hp
    refine ⟨hI.pushInstruction hr (.inr (by decide)) _ _ _ p hp.1, ?_⟩
    rcases pushInstruction_cases p .runTape .base 1 operands with ⟨e, hrun⟩ | ⟨i, -, -, hrun⟩
    · rw [hrun]
      exact hp.2
    · rw [hrun]
      exact hp.2.modifyCurrent rfl rfl
  -- the group and the callees are noted together
  have hnote (roots : List NodeId) (p : Program) (hp : J roots p)
      (hb : p.currentTape.isBuilding = true) : ∃ q, Within I floors q ∧ (do
        discard <| onTree (·.addGroup p.currentTape.activeBlock.node .max roots)
        starts.forM fun start => do
          addCallee start.tape ((← get).tapeAt start.tape).bitLengths : BuildM PUnit).run p =
        (.ok ⟨⟩, q) := by
    have hlawful : Lawful (do
        discard <| onTree (·.addGroup p.currentTape.activeBlock.node .max roots)
        starts.forM fun start => do
          addCallee start.tape ((← get).tapeAt start.tape).bitLengths : BuildM PUnit) :=
      (lawful_onTree _).discard.bind fun _ =>
        .forM (fun _ => Lawful.get.bind fun _ => lawful_addCallee _ _) starts
    have hends := (hlawful p hp.1.sane.1).ends
    have htree := run_onTree (·.addGroup p.currentTape.activeBlock.node .max roots) p
    obtain ⟨merge, hrun⟩ := exists_run_addCallees starts
      { p with tree := (p.tree.addGroup p.currentTape.activeBlock.node .max roots).2 }
    rw [run_bind_ok (run_discard_ok htree), hrun, modifyTape_eq_const] at hends ⊢
    refine ⟨_, hp.1.evolves hends ?_, rfl⟩
    obtain ⟨hwithin, rfl, hids⟩ := hp
    exact hI.advance hwithin hr hb (.runTapes hids) h
  refine .get_bind fun p => .ite _ .throw_bind ?_
  intro p hp
  refine (reads_checkStarts [] starts).bind_cases (Within I floors) hp fun roots hroots => ?_
  have hstart : J roots p := ⟨hp, startable_of_run_checkStarts hroots⟩
  refine (hacquire roots starts).bind_into (fun _ => And.left) (fun threads p hp => ?_) hstart
  refine (hblock roots _).discard.bind_into (fun _ => And.left) (fun _ p hp => ?_) hp
  refine (hpush roots _).bind_into (fun _ => And.left) (fun _ p hp => ?_) hp
  refine reads_activeNode.bind_cases (Within I floors) hp.1 fun node hnode => ?_
  obtain ⟨rfl, hb⟩ := of_run_activeNode hnode
  obtain ⟨q, hq, hrun⟩ := hnote roots p hp hb
  rw [← bind_assoc, run_bind_ok hrun]
  exact ((hI.continueBlock hr _).discard.bind fun _ => .pure _) q hq

/-! ### Tapes -/

theorem withTape {act : BuildM α} (hact : Maintains (Within I floors) act) (hlawful : Lawful act)
    (h : Within I floors p) (hid : id < p.tapes.size) (hfloor : ∀ n ∈ floors, n ≤ id) :
    I floors ((BuildM.withTape id act).run p).2 := by
  have hstart : Within I floors { p with current := id } :=
    ⟨⟨h.sane.1.turnTo hid, h.sane.2.1, hI.turn h.sane.2.2 hid hfloor⟩, hfloor⟩
  have hends := (hlawful _ hstart.sane.1).ends
  exact hI.turn (hact _ hstart).sane.2.2 (h.lt.trans_le hends.size_le) h.floor

omit hI in
theorem le_size (h : Within I floors p) : ∀ n ∈ floors, n ≤ p.tapes.size :=
  fun n hn => (h.floor n hn).trans h.lt.le

theorem within_addTape (h : Within I floors p) (name : String) {kind : TapeKind} (singular : Bool)
    (hkind : kind = .thread ∨ kind = .function) : Within I floors { p with
      tree := (p.tree.addNode name).2
      tapes := p.tapes.push (Tape.new p.tapes.size name kind singular (p.tree.addNode name).1) } :=
  h.evolves (evolves_addTape h.sane.1 ..) (hI.addTape name singular h hkind)

theorem newFunction (name : String) {body : BuildM α} (hbody : Maintains (Within I floors) body)
    (hlawful : Lawful body) : Maintains (Within I floors) (BuildM.newFunction name body) := by
  refine maintains_within (lawful_newFunction name hlawful) fun p hp => ?_
  have hrun : (BuildM.addTape name .function true).run p = (.ok p.tapes.size, _) := rfl
  have hadd := hI.within_addTape hp (p.name ++ "-" ++ name) true (.inr rfl)
  unfold BuildM.newFunction
  rw [run_bind_ok hrun, bind_pure_comp, run_map]
  exact hI.withTape hbody hlawful hadd (by simp) (le_size hp)

theorem newTape (name : String) (options : ThreadOptions) {body : BuildM α}
    (hbody : Maintains (Within I floors) body) (hlawful : Lawful body) :
    Maintains (Within I floors) (BuildM.newTape name options body) := by
  refine maintains_within (lawful_newTape name options hlawful) fun p hp => ?_
  have hrun : (BuildM.addTape name .thread options.single).run p = (.ok p.tapes.size, _) := rfl
  have hadd := hI.within_addTape hp (p.name ++ "-" ++ name) options.single (.inl rfl)
  have hnote : Evolves _ (Program.modifyTape _ p.tapes.size ({ · with threads := options.threads })) :=
    hadd.sane.1.quietEdit fun _ => .note (.of_eq rfl)
  unfold BuildM.newTape
  rw [run_bind_ok hrun, run_bind_ok (run_modify _ _), bind_pure_comp, run_map]
  refine hI.withTape hbody hlawful (hadd.evolves hnote ?_) ?_ (le_size hp)
  · exact (hI.quiet floors).note hadd.sane.2.2 ⟨rfl, rfl, rfl, rfl, rfl, rfl⟩
  · rw [size_modifyTape]
    simp

/-! ### Macros -/

omit hI in
theorem finishTemplate_cases (key : MacroKey) (signature : MacroSignature) (params : List Reg)
    (t : Tape) (p : Program) : ∃ tree answer,
      (tree = p.tree ∨ tree = (p.tree.aggregate t.root).2) ∧
      (finishTemplate key signature params t).run p = (answer, { p with tree }) ∧
      ∀ template, answer = .ok template → t.Condenses template := by
  suffices h : ∃ tree answer, (tree = p.tree ∨ tree = (p.tree.aggregate t.root).2) ∧
      (finishTemplate key signature params t).run p = (answer, { p with tree }) by
    obtain ⟨tree, answer, htree, hrun⟩ := h
    refine ⟨tree, answer, htree, hrun, ?_⟩
    rintro template rfl
    exact condenses_of_run_finishTemplate hrun
  unfold finishTemplate
  simp only []
  split
  · exact ⟨p.tree, _, .inl rfl, rfl⟩
  · refine ⟨(p.tree.aggregate t.root).2, ?_⟩
    rw [run_bind_ok (run_onTree _ p)]
    rcases (expandBody (t.block 0).ops (p.tree.aggregate t.root).1).run t.regs with ⟨e | body, regs⟩
    · exact ⟨_, .inr rfl, rfl⟩
    · exact ⟨_, .inr rfl, rfl⟩

omit hI in
/-- The body of a macro is built on a tape of its own, which is dropped afterwards. -/
theorem compileTemplate_cases (body : MacroBody) (key : MacroKey) (signature : MacroSignature)
    (p : Program) :
    (∃ e, (compileTemplate body key signature).run p =
      (.error e, { p with tree := (p.tree.addNode ("template " ++ key.text)).2 })) ∨
    ∃ params r tree answer,
      r = ((body.build params).run { p with
        tree := (p.tree.addNode ("template " ++ key.text)).2
        tapes := p.tapes.push
          { Tape.new p.tapes.size key.text .template true
              (p.tree.addNode ("template " ++ key.text)).1 with
            regs := ((createParams signature).run (.new p.tapes.size)).2 }
        current := p.tapes.size, vectorSize := 1, domain := key.domain }).2 ∧
      (tree = r.tree ∨ tree = (r.tree.aggregate (r.tapeAt p.tapes.size).root).2) ∧
      (compileTemplate body key signature).run p = (answer, { r with
        tree, tapes := r.tapes.take p.tapes.size, current := p.current
        vectorSize := p.vectorSize, domain := p.domain }) ∧
      ∀ t, answer = .ok t → (r.tapeAt p.tapes.size).Condenses t := by
  rw [compileTemplate_eq]
  rw [run_bind_ok (run_get p), run_bind_ok (run_onTree _ p)]
  generalize p.tree.addNode ("template " ++ key.text) = node
  obtain ⟨root, tree⟩ := node
  simp only []
  rcases hparams : ((createParams signature).run (.new p.tapes.size)).1 with e | params
  · exact .inl ⟨e, by rw [show (Tape.new p.tapes.size key.text .template true root).regs =
      .new p.tapes.size from rfl, hparams]; rfl⟩
  · right
    rw [show (Tape.new p.tapes.size key.text .template true root).regs = .new p.tapes.size from rfl,
      hparams]
    let start : Program := { p with
      tree, current := p.tapes.size, vectorSize := 1, domain := key.domain
      tapes := p.tapes.push { Tape.new p.tapes.size key.text .template true root with
        regs := ((createParams signature).run (.new p.tapes.size)).2 } }
    let r := ((body.build params).run start).2
    let left : Program := { r with
      tapes := r.tapes.take p.tapes.size, current := p.current
      vectorSize := p.vectorSize, domain := p.domain }
    have hbuilt : (buildAside { Tape.new p.tapes.size key.text .template true root with
        regs := ((createParams signature).run (.new p.tapes.size)).2 } key.domain
        (body.build params)).run { p with tree } =
        (.ok (((body.build params).run start).1, r.tapes), left) := rfl
    rw [run_bind_ok (run_liftM _ _), run_bind_ok hbuilt]
    simp only []
    split
    · exact ⟨params, r, r.tree, _, rfl, .inl rfl, rfl, fun t => by simp⟩
    · rcases hanswer : ((body.build params).run start).1 with e | _
      · exact ⟨params, r, r.tree, _, rfl, .inl rfl, rfl, fun t => by simp⟩
      · obtain ⟨tree', answer, htree, hrun, hcondenses⟩ := finishTemplate_cases key signature params
          (r.tapes.getD p.tapes.size default) left
        exact ⟨params, r, tree', answer, rfl, htree, hrun, hcondenses⟩

theorem within_enter (h : Within I floors p) (hcache : p.options.cacheMacros) (name : String)
    (key : MacroKey) (signature : MacroSignature) : Within I (p.tapes.size :: floors) { p with
      tree := (p.tree.addNode name).2
      tapes := p.tapes.push
        { Tape.new p.tapes.size key.text .template true (p.tree.addNode name).1 with
          regs := ((createParams signature).run (.new p.tapes.size)).2 }
      current := p.tapes.size, vectorSize := 1, domain := key.domain } := by
  have hgrows := (meets_createParams (valid_new p.tapes.size) signature).ends
  have hset : Evolves p { p with
      tree := (p.tree.addNode name).2, vectorSize := 1, domain := key.domain } :=
    h.sane.1.beside rfl
  have hpush := trans_of Evolves hset (hset.coherent.addTape (.single (.registers (.inl rfl)
    ⟨hgrows.ext.keeps, hgrows.valid⟩) : Tape.Edits p.options False
      (Tape.new p.tapes.size key.text .template true (p.tree.addNode name).1)
      { Tape.new p.tapes.size key.text .template true (p.tree.addNode name).1 with
        regs := ((createParams signature).run (.new p.tapes.size)).2 }))
  refine ⟨⟨hpush.coherent.turnTo (by simp), hpush.graphs h.sane.2.1, ?_⟩, ?_⟩
  · exact (hI.quiet _).aside (hI.enter name key.text _ h hcache) (.of_eq rfl)
  · exact forall_mem_cons.2 ⟨le_rfl, le_size h⟩

theorem within_ask (h : Within I floors p) (hid : id < p.tapes.size) :
    Within I floors { p with tree := (p.tree.aggregate (p.tapeAt id).root).2 } :=
  h.evolves (h.sane.1.beside rfl) ((hI.quiet floors).aggregate h.sane.2.2 hid)

theorem template (hbody : ∀ floors args, Maintains (Within I floors) (body.build args))
    (hlawful : ∀ args, Lawful (body.build args)) (key : MacroKey) (signature : MacroSignature)
    (hp : Within I floors p) (hcache : p.options.cacheMacros) :
    Within I floors ((BuildM.template body key signature).run p).2 := by
  refine hp.evolves (meets_template hp.sane.1 hlawful key signature).ends ?_
  obtain ⟨-, hkeep⟩ := find?_eq_lookup p.macros key
  unfold BuildM.template
  rw [run_get_bind]
  generalize p.macros.find? key = answer at hkeep
  obtain ⟨found, macros⟩ := answer
  simp only []
  rw [run_bind_ok (run_set { p with macros } p)]
  have hp' : Within I floors { p with macros } := hI.aside hp ⟨rfl, rfl, rfl, rfl, hkeep, rfl⟩
  replace hcache : ({ p with macros } : Program).options.cacheMacros = true := hcache
  clear hp hkeep
  cases found with
  | some t => exact hp'.sane.2.2
  | none =>
    simp only []
    generalize { p with macros } = p at hp' hcache
    rcases compileTemplate_cases body key signature p with
      ⟨e, hrun⟩ | ⟨params, r, tree, answer, hr, htree, hrun, hcondenses⟩
    · rw [run_bind_error hrun]
      exact hI.sprout _ hp'
    · have hstart := hI.within_enter hp' hcache ("template " ++ key.text) key signature
      have hlt : p.tapes.size < r.tapes.size := by
        refine lt_of_lt_of_le ?_ (hr ▸ (hlawful params _ hstart.sane.1).ends.size_le)
        simp
      have hend : Within I (p.tapes.size :: floors) r := hr ▸ hbody _ params _ hstart
      have hwithin : Within I (p.tapes.size :: floors) { r with tree } := by
        rcases htree with rfl | rfl
        · exact hend
        · exact hI.within_ask hend hlt
      have hleave (macros : MacroCache) (hmacros : ∀ {key t}, macros.lookup key = some t →
          r.macros.lookup key = some t ∨ (r.tapeAt p.tapes.size).Condenses t) : I floors { r with
            tree, tapes := r.tapes.take p.tapes.size, current := p.current, macros
            vectorSize := p.vectorSize, domain := p.domain } :=
        (hI.quiet floors).aside (hI.leave hwithin hlt hp'.lt hp'.floor hmacros) (.of_eq rfl)
      rcases answer with e | t
      · rw [run_bind_error hrun]
        exact hleave r.macros .inl
      · rw [run_bind_ok hrun]
        refine hleave (r.macros.insert t) fun {key s} hs => ?_
        rw [MacroCache.lookup_insert] at hs
        split at hs
        · cases hs
          exact .inr (hcondenses t rfl)
        · exact .inl hs

omit hI in
theorem reads_checkArguments (name : String) (size : Option Nat) (args : List (Reg × RegisterClass)) :
    Reads (checkArguments name size args) := by
  induction args generalizing size with
  | nil => exact .pure _
  | cons a rest ih =>
    exact (reads_registerInfo _).bind fun _ => .ite _ .throw_bind (.ite _ .throw_bind (ih _))

theorem pushOp_call {c : MacroCall} (h : Within I floors p)
    (hc : p.macros.lookup c.key = some c.template) : I floors ((pushOp (.call c)).run p).2 := by
  refine reads_building.bind_cases (I floors) h.sane.2.2 fun t ht => ?_
  obtain ⟨rfl, hb⟩ := of_run_building ht
  refine (Reads.liftM _).bind_cases (I floors) h.sane.2.2 fun t ht => ?_
  obtain ⟨-, -, rfl⟩ := of_push_eq_ok (congrArg Prod.fst ht)
  exact hI.pushCall h hb hc

theorem callMacro (hbody : ∀ floors args, Maintains (Within I floors) (body.build args))
    (hlawful : ∀ args, Lawful (body.build args)) (args : List Reg) :
    Maintains (Within I floors) (BuildM.callMacro body args) := by
  refine maintains_within (lawful_callMacro hlawful args) fun p hp => ?_
  have hI' := hp.sane.2.2
  unfold BuildM.callMacro
  rw [run_get_bind]
  simp only []
  split
  · exact (Reads.throw_bind (e := _)).maintains p hI'
  · refine (reads_checkArguments _ _ _).bind_cases (I floors) hI' fun common _ => ?_
    split
    · rename_i hcache
      generalize hkey : (⟨body.name, body.params, p.options.security, p.domain⟩ : MacroKey) = key
      have htemplate := meets_template hp.sane.1 hlawful key
        (body.signature.map fun x => (x.1.inDomain p.domain, x.2))
      have hwithin : Within I floors _ := hI.template hbody hlawful key
        (body.signature.map fun x => (x.1.inDomain p.domain, x.2)) hp hcache
      refine run_bind_cases (I floors) (fun e r hrun => ?_) fun t r hrun => ?_
      · exact (congrArg (Within I floors ·.2) hrun).mp hwithin |>.sane.2.2
      · replace hwithin : Within I floors r := (congrArg (Within I floors ·.2) hrun).mp hwithin
        have hlookup := htemplate.result t r hrun
        refine reads_building.bind_cases (I floors) hwithin.sane.2.2 fun _ _ => ?_
        unfold modifyCurrent
        rw [run_bind_ok (run_modify _ _)]
        refine hI.pushOp_call (c := ⟨t, [⟨args, common.getD p.vectorSize⟩]⟩)
          (hwithin.evolves ?_ ?_) hlookup
        · exact hwithin.sane.1.quietEdit fun _ => .note (.of_eq rfl)
        · exact (hI.quiet floors).note hwithin.sane.2.2 ⟨rfl, rfl, rfl, rfl, rfl, rfl⟩
    · refine (reads_checkVectorSize _).bind_cases (I floors) hI' fun _ _ => ?_
      have hstart := hI.aside (q := { p with vectorSize := common.getD p.vectorSize }) hp (.of_eq rfl)
      exact (hI.quiet floors).aside (hbody floors args _ hstart).sane.2.2 (.of_eq rfl)

end Tracked

/-- The stages that compile single tapes and finish the program maintain the property. -/
structure Staged (I : List TapeId → Program → Prop) (floors : List TapeId) : Prop where
  closeMain : Maintains (Within I floors) BuildM.closeMain
  scheduleTape : ∀ id, Maintains (Within I floors) (BuildM.scheduleTape id)
  ensureAllocated : ∀ id, Maintains (Within I floors) (BuildM.ensureAllocated id)
  finish : Maintains (Within I floors) BuildM.finish

end Program

variable (hI : Tracked outer inner I)
  (hfinal : ∀ {floors r}, Allows outer inner floors r → r.finals → ∀ id,
    Maintains (Within I floors) (BuildM.finalizeTape id))
  (hstages : ∀ {floors r}, Allows outer inner floors r → r.stages → Staged I floors)

include hI hfinal hstages in
/-- Actions that follow the rules maintain a tracked property. -/
theorem BuildM.Follows.maintains {α : Type} {act : BuildM α}
    (h : Follows inner r act) (hr : Allows outer inner floors r) :
    Maintains (Within I floors) act := by
  have hset {floors : List TapeId} {f : Program → Program} (hf : ∀ p, SameWork p (f p)) :
      Maintains (Within I floors) (modify f : BuildM PUnit) := hI.modify hf
  have hquiet {β : Type} {floors : List TapeId} {act : BuildM β} (hact : act.Api)
      (hm : Maintains (I floors) act) : Maintains (Within I floors) act := within_of_maintains hact hm
  induction h generalizing floors with
  | pure a => exact .pure a
  | throw e => exact .throw e
  | get => exact Reads.get.maintains
  | bind _ _ ih ihk => exact (ih hr).bind fun a => ihk a hr
  | attempt _ ih => exact maintains_attempt (ih hr)
  | withVectorSize size _ ih => exact maintains_withVectorSize hset size (ih hr)
  | withDomain domain _ ih => exact maintains_withDomain hset domain (ih hr)
  | setPolicy policy => exact hset fun _ => .of_eq rfl
  | registerInfo reg => exact (reads_registerInfo reg).maintains
  | createRegister cls size =>
      exact hquiet (.createRegister cls size) ((hI.quiet _).createRegister cls size)
  | newVector cls size => exact hquiet (.newVector cls size) ((hI.quiet _).newVector cls size)
  | newInteger => exact hquiet .newInteger (hI.quiet _).newInteger
  | view reg start size => exact hquiet (.view reg start size) ((hI.quiet _).view reg start size)
  | link a b => exact hquiet (.link a b) ((hI.quiet _).link a b)
  | emit h operands => exact hI.emit hr h operands
  | pushInstruction h domain size operands => exact hI.pushInstruction hr h domain size operands
  | callMacro h args ih =>
    exact hI.callMacro (fun _ args => ih args (.inl rfl)) (fun args => (h args).api.lawful) args
  | openLoop h counter =>
    exact hI.replaces hr (lawful_openLoop _ counter) (fun p _ => openLoop_cases p _ counter) h
  | endLoop cond =>
    exact hI.replaces hr (lawful_endLoop cond) (fun p hlt => endLoop_cases p hlt cond) trivial
  | beginIf cond =>
    exact hI.replaces hr (lawful_beginIf cond) (fun p _ => beginIf_cases p cond) trivial
  | beginElse => exact hI.replaces hr lawful_beginElse (fun p _ => beginElse_cases p) trivial
  | endIf => exact hI.replaces hr lawful_endIf endIf_cases trivial
  | beginFunction =>
    exact hI.replaces hr lawful_beginFunction (fun p _ => beginFunction_cases p) trivial
  | endFunction => exact hI.replaces hr lawful_endFunction endFunction_cases trivial
  | newTape name options h ih => exact hI.newTape name options (ih hr) h.api.lawful
  | newFunction name h ih => exact hI.newFunction name (ih hr) h.api.lawful
  | tapeParameter cls size =>
      exact hquiet (.tapeParameter cls size) ((hI.quiet _).tapeParameter cls size)
  | runTapes h starts => exact hI.runTapes hr h starts
  | joinTapes threads => exact hI.joinTapes hr threads
  | callTape h id args =>
    exact hI.replaces hr (lawful_callTape id args) (fun p hlt => callTape_cases p hlt id args) h
  | malloc cls size => exact hquiet (.malloc cls size) ((hI.quiet _).malloc cls size)
  | free cls addr => exact hquiet (.free cls addr) ((hI.quiet _).free cls addr)
  | flushMemory => exact hquiet .flushMemory (hI.quiet _).flushMemory
  | threadAddress base stride =>
    exact hquiet (.threadAddress base stride) ((hI.quiet _).threadAddress base stride)
  | incrementRequirement resource n =>
    exact hquiet (.incrementRequirement resource n) ((hI.quiet _).incrementRequirement resource n)
  | requireBitLength bits domain =>
    exact hquiet (.requireBitLength bits domain) ((hI.quiet _).requireBitLength bits domain)
  | requirements id => exact hquiet (.requirements id) ((hI.quiet _).requirements id)
  | closeMain h => exact (hstages hr h).closeMain
  | scheduleTape h id => exact (hstages hr h).scheduleTape id
  | ensureAllocated h id => exact (hstages hr h).ensureAllocated id
  | finalizeTape h id => exact hfinal hr h id
  | finish h => exact (hstages hr h).finish

namespace Program

/-- The program is what actions under the rules made of a new one; the last of them may have
failed. -/
def BuiltUnder (outer inner : Rules) (p : Program) : Prop :=
  ∃ (name : String) (options : Options) (start : Program) (α : Type) (act : BuildM α),
    Program.new name options = .ok start ∧ BuildM.Follows inner outer act ∧ (act.run start).2 = p

include hI hfinal hstages in
theorem BuiltUnder.within (h : p.BuiltUnder outer inner)
    (hnew : ∀ {name options start}, Program.new name options = .ok start → I [] start) :
    Within I [] p := by
  obtain ⟨name, options, start, α, act, hstart, hact, rfl⟩ := h
  exact hact.maintains hI hfinal hstages (.inr ⟨rfl, rfl⟩) start
    ⟨⟨coherent_of_new hstart, graphs_of_new hstart, hnew hstart⟩, nofun⟩

end Program

end SecureTape
