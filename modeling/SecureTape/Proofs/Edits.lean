import Mathlib.Logic.Relation
import SecureTape.Program.Compiled
import SecureTape.Proofs.Blocks
import SecureTape.Proofs.Slots

/-!
# Edits of a tape

Whatever the actions of a program do to one of its tapes is a sequence of edits. Main statements:
1. `Tape.Edit`: the edits, each with what holds when it is made.
2. `Tape.Edit.sound`: an edit keeps the registers of a tape valid, and its code on these registers.
3. `Tape.Edit.calls_cases`: macro calls enter a tape only where they may be appended.
-/

namespace SecureTape

open RegisterFile List BuildM

/-! ## Edits -/

variable {f : Block → Block} {i id : BlockId} {is : List Instruction} {name : String} {t t' : Tape}

def assignRegisters (options : Options) (regs : RegisterFile) (blocks : Array Block) :
    Except CompileError (PerClass Nat) × RegisterFile :=
  if options.reallocate then allocateRegisters regs options.registerLimit blocks
  else keepVirtual regs options.registerLimit

theorem sameShape_assignRegisters (options : Options) (regs : RegisterFile) (blocks : Array Block) :
    SameShape regs (assignRegisters options regs blocks).2 := by
  unfold assignRegisters
  split
  · exact sameShape_allocateRegisters regs _ blocks
  · exact sameShape_keepVirtual regs _

namespace Tape

/-- The tapes differ at most in what is noted beside the code. -/
structure SameCode (t t' : Tape) : Prop where
  id : t'.id = t.id
  name : t'.name = t.name
  regs : t'.regs = t.regs
  blocks : t'.blocks = t.blocks
  active : t'.active = t.active
  scopes : t'.scopes = t.scopes
  prologue : t'.prologue = t.prologue
  state : t'.state = t.state
  params : ∀ r ∈ t'.params, r ∈ t.params ∨ t.regs.owns r = true

theorem SameCode.of_eq {t' : Tape} (h : t' = { t' with
      id := t.id, name := t.name, regs := t.regs, blocks := t.blocks, active := t.active
      scopes := t.scopes, prologue := t.prologue, state := t.state, params := t.params }) :
    SameCode t t' := by
  rw [h]
  exact ⟨rfl, rfl, rfl, rfl, rfl, rfl, rfl, rfl, fun _ => .inl⟩

/-- The tape still gets registers. -/
def TakesRegisters (t : Tape) : Prop := t.state = .building ∨ t.state = .scheduled

def declare (t : Tape) (is : List Instruction) : Tape :=
  t.modifyBlock (t.blocks.size - 1) (·.insertAtEnd is)

/-- One step in the life of a tape of a program with the given options. Macro calls are appended
only if `calls` holds. -/
inductive Edit (options : Options) (calls : Prop) : Tape → Tape → Prop
  | note {t t' : Tape} (h : SameCode t t') : Edit options calls t t'
  | registers {t : Tape} {g : RegisterFile} (hstate : t.TakesRegisters) (hg : Covers t.regs g) :
      Edit options calls t { t with regs := g }
  | push {t : Tape} {op : Op} (hb : t.isBuilding = true) (hopen : t.activeBlock.isOpen = true)
      (hop : op.Owned t.regs) (hcall : op.inst? = none → calls) :
      Edit options calls t (t.modifyBlock t.active fun b => { b with ops := b.ops ++ [op] })
  | prologue {t : Tape} {i : Instruction} (hi : (Op.inst i).Owned t.regs) :
      Edit options calls t { t with prologue := t.prologue ++ [.inst i] }
  | startBlock {t : Tape} {name : String} {scope : Option BlockId} {node : NodeId}
      (hb : t.isBuilding = true) (hscope : scope = none ∨ scope = some t.active) :
      Edit options calls t (t.startBlock name scope none node).2
  | openLoop {t : Tape} {name : String} {node outer : NodeId} {counter : Option (Reg × Nat)}
      (hb : t.isBuilding = true) :
      Edit options calls t { (t.startBlock name (some t.active) none node).2 with
        scopes := .loop t.blocks.size t.active outer counter :: t.scopes }
  | endLoop {t : Tape} {name : String} {cond : Reg} {start entry : BlockId} {outer : NodeId}
      {counter : Option (Reg × Nat)} {rest : List Scope} (hb : t.isBuilding = true)
      (hscopes : t.scopes = .loop start entry outer counter :: rest)
      (hcond : t.regs.Decides cond) :
      Edit options calls t
        { (t.startBlock name (some entry) (some ⟨.ifNonZero cond, some start⟩) outer).2 with
          scopes := rest }
  | beginIf {t : Tape} {name : String} {cond : Reg} {group : Nat} {node outer : NodeId}
      (hb : t.isBuilding = true) (hcond : t.regs.Decides cond) :
      Edit options calls t
        { (t.startBlock name (some t.active) (some ⟨.ifZero cond, none⟩) node).2 with
          scopes := .branch t.active group outer none :: t.scopes }
  | beginElse {t : Tape} {name : String} {cond : BlockId} {group : Nat} {node outer : NodeId}
      {rest : List Scope} (hb : t.isBuilding = true)
      (hscopes : t.scopes = .branch cond group outer none :: rest) :
      Edit options calls t
        { (t.startBlock name (some cond) (some ⟨.always, none⟩) node).2.modifyBlock cond
            (·.setTarget t.blocks.size) with
          scopes := .branch cond group outer (some t.active) :: rest }
  | endIf {t : Tape} {name : String} {cond : BlockId} {group : Nat} {outer : NodeId}
      {thenEnd : Option BlockId} {rest : List Scope} (hb : t.isBuilding = true)
      (hscopes : t.scopes = .branch cond group outer thenEnd :: rest) :
      Edit options calls t
        { (t.startBlock name (some cond) none outer).2.modifyBlock (thenEnd.getD cond)
            (·.setTarget t.blocks.size) with
          scopes := rest }
  | beginFunction {t : Tape} {name : String} {outer : NodeId} (hb : t.isBuilding = true) :
      Edit options calls t { (t.startBlock name none none outer).2 with
        scopes := .function t.active outer :: t.scopes }
  | endFunction {t : Tape} {name : String} {entry : BlockId} {outer : NodeId} {rest : List Scope}
      (hb : t.isBuilding = true) (hscopes : t.scopes = .function entry outer :: rest) :
      Edit options calls t { (t.startBlock name (some entry) none outer).2 with scopes := rest }
  | close {t : Tape} (hb : t.isBuilding = true) (hscopes : t.scopes = []) :
      Edit options calls t (BuildM.closeTape t)
  | setOps {t : Tape} {index : BlockId} {ops : List Op} {rounds groups : Nat} {usage : Tally}
      (hstate : t.state = .scheduled)
      (hops : ∀ op ∈ ops, op.Owned t.regs ∧ op.inst?.isSome = true) :
      Edit options calls t (t.modifyBlock index fun b => { b with ops, rounds, groups, usage })
  | declare {t : Tape} {is : List Instruction} (hstate : t.state = .scheduled)
      (his : ∀ i ∈ is, i.Typed t.regs ∧ i.accesses = []) : Edit options calls t (t.declare is)
  | place {t : Tape} (hstate : t.state = .scheduled) :
      Edit options calls t { t with blocks := (Layout.resolve t.blocks.toList).2.toArray }
  | allocate {t : Tape} {is : List Instruction} {usage : PerClass Nat} {requirements : Tally}
      (hstate : t.state = .scheduled) (his : ∀ i ∈ is, i.Typed t.regs ∧ i.accesses = [])
      (husage : (assignRegisters options t.regs (t.declare is).blocks).1 = .ok usage)
      (hplace : (Layout.resolve (t.declare is).blocks.toList).1 = .ok ()) :
      Edit options calls t { t.declare is with
        regs := (assignRegisters options t.regs (t.declare is).blocks).2
        blocks := (Layout.resolve (t.declare is).blocks.toList).2.toArray
        state := .allocated usage requirements }
  | encode {t : Tape} {usage : PerClass Nat} {requirements : Tally} {result : FinishedTape}
      {physical : Reg → Nat} (hstate : t.state = .allocated usage requirements)
      (hname : result.name = t.name)
      (hphysical : ∀ r, t.regs.owns r = true → physical r = t.regs.physical r)
      (hcode : result.bytecode =
        (t.blocks.toList.flatMap Block.instructions).flatMap (·.encode physical))
      (hcount : result.instructionCount = (t.blocks.toList.flatMap Block.instructions).length)
      (husage : result.registerUsage = usage) (hrequired : result.requirements = requirements) :
      Edit options calls t { BuildM.purgeTape t with state := .finished result }

/-! ## What edits keep -/

/-- The registers of a tape are valid, and its parameters and all its code are on these
registers. -/
structure Sound (t : Tape) : Prop where
  valid : t.regs.Valid
  tape : t.regs.tape = t.id
  block : ∀ i, (t.block i).Sound t.regs
  prologue : ∀ op ∈ t.prologue, op.Owned t.regs ∧ op.inst?.isSome = true
  params : ∀ r ∈ t.params, t.regs.owns r = true

namespace Sound

theorem of_blocks (h : t.Sound) (hregs : t'.regs = t.regs) (hid : t'.id = t.id)
    (hprologue : t'.prologue = t.prologue) (hparams : ∀ r ∈ t'.params, t.regs.owns r)
    (hblock : ∀ i, (t'.block i).Sound t.regs) : t'.Sound := by
  refine ⟨?_, ?_, ?_, ?_, ?_⟩
  · rw [hregs]
    exact h.valid
  · rw [hregs, hid]
    exact h.tape
  · rw [hregs]
    exact hblock
  · rw [hregs, hprologue]
    exact h.prologue
  · rw [hregs]
    exact hparams

theorem new (id : TapeId) (name : String) (kind : TapeKind) (singular : Bool) (root : NodeId) :
    (Tape.new id name kind singular root).Sound := by
  refine ⟨valid_new id, rfl, ?_, nofun, nofun⟩
  refine forall_block (.default _) ?_
  intro b hb
  obtain rfl := Array.mem_singleton.1 hb
  exact ⟨nofun, nofun, nofun⟩

theorem covers (h : t.Sound) {g : RegisterFile} (hg : Covers t.regs g) :
    Sound { t with regs := g } where
  valid := hg.valid
  tape := hg.tape.trans h.tape
  block i := (h.block i).covers hg
  prologue op hop := ⟨(h.prologue op hop).1.keeps hg.toKeeps, (h.prologue op hop).2⟩
  params r hr := hg.owns (h.params r hr)

theorem modifyBlock (h : t.Sound) (id : BlockId) (hf : (f (t.block id)).Sound t.regs) :
    (t.modifyBlock id f).Sound := by
  refine h.of_blocks rfl rfl rfl h.params ?_
  intro i
  rw [block_modifyBlock]
  split
  · exact hf
  · exact h.block i

theorem startBlock (h : t.Sound) (name : String) (scope : Option BlockId) (exit : Option Exit)
    (node : NodeId)
    (hexit : ∀ cond, exit.bind (·.kind.condition?) = some cond → t.regs.Decides cond) :
    (t.startBlock name scope exit node).2.Sound := by
  refine h.of_blocks (regs_startBlock ..) (id_startBlock ..) (prologue_startBlock ..)
    (by rw [params_startBlock]; exact h.params) ?_
  obtain ⟨name', pool, hblock⟩ := block_startBlock t name scope exit node
  intro i
  rw [hblock i]
  have hb : (if i = t.blocks.size then { name := name', scope, pool, node }
      else if i = t.active ∧ t.active < t.blocks.size then (t.block t.active).close exit
      else t.block i : Block).Sound t.regs := by
    split
    · exact ⟨nofun, nofun, nofun⟩
    · split
      · exact (h.block t.active).close hexit
      · exact h.block i
  simp only []
  split
  · exact ⟨hb.ops, hb.exit, hb.inherited⟩
  · exact hb

theorem scopes (h : t.Sound) (scopes : List Scope) : Sound { t with scopes } :=
  ⟨h.valid, h.tape, h.block, h.prologue, h.params⟩

end Sound

/-! Closing a tape. -/

section Close

variable (t : Tape)

/-- The tape with its prologue in front and all blocks closed. -/
def closed : Tape :=
  ({ t.modifyBlock 0 fun b => { b with ops := t.prologue ++ b.ops } with prologue := [] } :
    Tape).closeAll

theorem block_closed (hi : i < t.blocks.size) :
    t.closed.block i = (if i = 0 then { t.block i with ops := t.prologue ++ (t.block i).ops }
      else t.block i).close none := by
  have hmap : t.closed.block i =
      ((t.modifyBlock 0 fun b => { b with ops := t.prologue ++ b.ops }).block i).close none := by
    simp [closed, closeAll, block, modifyBlock, hi]
  rw [hmap, block_modifyBlock]
  by_cases h0 : i = 0
  · subst h0
    simp [hi]
  · simp [h0]

theorem size_closed : t.closed.blocks.size = t.blocks.size := by
  simp [closed, closeAll, modifyBlock]

theorem closeTape_eq : closeTape t = { t.closed with
    blocks := t.closed.blocks.map fun b => { b with inherited := b.findInherited t.regs }
    regs := (t.closed.blocks.toList.flatMap (·.findInherited t.regs)).foldl RegisterFile.keep t.regs
    state := .scheduled } := by
  show ({ t.closed with
    blocks := (inheritAll t.closed.regs t.closed.blocks.toList).1.toArray
    regs := (inheritAll t.closed.regs t.closed.blocks.toList).2, state := .scheduled } : Tape) = _
  have hregs : t.closed.regs = t.regs := rfl
  rw [inheritAll_eq, hregs]
  simp [← Array.toList_map]

theorem sameShape_closeTape : SameShape t.regs (closeTape t).regs := by
  rw [closeTape_eq]
  exact SameShape.foldl SameShape.keep _ t.regs

theorem size_closeTape : (closeTape t).blocks.size = t.blocks.size := by
  rw [closeTape_eq, Array.size_map, size_closed]

theorem block_closeTape (hi : i < t.blocks.size) :
    (closeTape t).block i =
      { t.closed.block i with inherited := (t.closed.block i).findInherited t.regs } := by
  rw [← size_closed] at hi
  simp [closeTape_eq, block, hi]

end Close

namespace Sound

theorem closed (h : t.Sound) : t.closed.Sound := by
  refine ⟨h.valid, h.tape, ?_, nofun, h.params⟩
  intro i
  by_cases hi : i < t.blocks.size
  · rw [block_closed t hi]
    refine Block.Sound.close ?_ nofun
    split
    · refine ⟨?_, (h.block i).exit, (h.block i).inherited⟩
      intro op hop
      rcases mem_append.1 hop with hop | hop
      · exact (h.prologue op hop).1
      · exact (h.block i).ops op hop
    · exact h.block i
  · rw [block_of_size_le (by rw [size_closed]; exact Nat.le_of_not_lt hi)]
    exact .default _

theorem closeTape (h : t.Sound) : (closeTape t).Sound := by
  have hshape := sameShape_closeTape t
  have hcovers := hshape.covers h.valid
  refine ⟨hshape.valid h.valid, ?_, ?_, ?_, ?_⟩
  · rw [hcovers.tape, h.tape, closeTape_eq]
    rfl
  · intro i
    by_cases hi : i < t.blocks.size
    · rw [block_closeTape t hi]
      have hb := h.closed.block i
      refine Block.Sound.covers (f := t.regs) ⟨hb.ops, hb.exit, ?_⟩ hcovers
      intro r hr
      exact hb.owned.of_mem_findInherited hr
    · rw [block_of_size_le (by rw [size_closeTape]; exact Nat.le_of_not_lt hi)]
      exact .default _
  · rw [closeTape_eq]
    exact nofun
  · intro r hr
    rw [closeTape_eq] at hr
    exact hcovers.owns (h.params r hr)

theorem declare (h : t.Sound) (his : ∀ i ∈ is, i.Typed t.regs ∧ i.accesses = []) :
    (t.declare is).Sound := by
  have hb := h.block (t.blocks.size - 1)
  refine h.modifyBlock _ ⟨?_, hb.exit, hb.inherited⟩
  intro op hop
  simp only [Block.insertAtEnd, mem_append, mem_map] at hop
  rcases hop with (hop | ⟨i, hi, rfl⟩) | hop
  · exact hb.ops op (mem_of_mem_take hop)
  · exact (his i hi).1.owned
  · exact hb.ops op (mem_of_mem_drop hop)

theorem place (h : t.Sound) :
    Sound { t with blocks := (Layout.resolve t.blocks.toList).2.toArray } := by
  refine h.of_blocks rfl rfl rfl h.params ?_
  refine forall_block (.default _) ?_
  intro b' hb'
  obtain ⟨b, hb, hplaced⟩ :=
    exists_left_of_forall₂ (Layout.placed_resolve t.blocks.toList) (mem_toArray.1 hb')
  obtain ⟨i, -, rfl⟩ := exists_block_of_mem (Array.mem_toList_iff.1 hb)
  exact (h.block i).placed hplaced

theorem purge (h : t.Sound) : (purgeTape t).Sound := by
  refine h.of_blocks rfl rfl rfl h.params ?_
  refine forall_block (.default _) ?_
  intro b' hb'
  obtain ⟨b, hb, rfl⟩ := Array.mem_map.1 (Array.mem_filter.1 hb').1
  obtain ⟨i, -, rfl⟩ := exists_block_of_mem hb
  exact ⟨nofun, (h.block i).exit, nofun⟩

end Sound

variable {options : Options} {calls : Prop}

theorem Edit.sound (h : Edit options calls t t') (ht : t.Sound) : t'.Sound := by
  cases h with
  | note h =>
    refine ht.of_blocks h.regs h.id h.prologue
      (fun r hr => (h.params r hr).elim (ht.params r) fun howns => howns) ?_
    intro i
    rw [block, h.blocks]
    exact ht.block i
  | registers hstate hg => exact ht.covers hg
  | push hb hopen hop hcall =>
    have hactive := ht.block t.active
    refine ht.modifyBlock _ ⟨?_, hactive.exit, hactive.inherited⟩
    intro o ho
    rcases mem_append.1 ho with ho | ho
    · exact hactive.ops o ho
    · rw [mem_singleton.1 ho]
      exact hop
  | prologue hi =>
    refine ⟨ht.valid, ht.tape, ht.block, ?_, ht.params⟩
    intro op hop
    rcases mem_append.1 hop with hop | hop
    · exact ht.prologue op hop
    · rw [mem_singleton.1 hop]
      exact ⟨hi, rfl⟩
  | startBlock hb hscope => exact ht.startBlock _ _ none _ (by rintro _ ⟨⟩)
  | openLoop | beginFunction | endFunction =>
    exact (ht.startBlock _ _ none _ (by rintro _ ⟨⟩)).scopes _
  | endLoop _ _ hcond | beginIf _ hcond =>
    refine (ht.startBlock _ _ _ _ ?_).scopes _
    rintro _ ⟨⟩
    exact hcond
  | @beginElse name cond group node outer rest hb hscopes =>
    have hs := ht.startBlock name (some cond) (some ⟨.always, none⟩) node (by rintro _ ⟨⟩)
    exact (hs.modifyBlock _ ((hs.block cond).setTarget _)).scopes _
  | @endIf name cond group outer thenEnd rest hb hscopes =>
    have hs := ht.startBlock name (some cond) none outer (by rintro _ ⟨⟩)
    exact (hs.modifyBlock _ ((hs.block _).setTarget _)).scopes _
  | close hb hscopes => exact ht.closeTape
  | @setOps index ops rounds groups usage hstate hops =>
    have hb := ht.block index
    exact ht.modifyBlock _ ⟨fun op hop => (hops op hop).1, hb.exit, hb.inherited⟩
  | declare hstate his => exact ht.declare his
  | place hstate => exact ht.place
  | @allocate is usage requirements hstate his husage hplace =>
    have hcovers := (sameShape_assignRegisters options t.regs (t.declare is).blocks).covers ht.valid
    have hs := ((ht.declare his).place).covers hcovers
    exact ⟨hs.valid, hs.tape, hs.block, hs.prologue, hs.params⟩
  | encode hstate hname hphysical hcode hcount husage hrequired =>
    exact ⟨ht.purge.valid, ht.purge.tape, ht.purge.block, ht.purge.prologue, ht.purge.params⟩

theorem Edit.id_eq (h : Edit options calls t t') : t'.id = t.id := by
  cases h with
  | note h => exact h.id
  | startBlock | openLoop | endLoop | beginIf | beginElse | endIf | beginFunction | endFunction =>
    exact id_startBlock ..
  | close hb hscopes =>
    rw [closeTape_eq]
    rfl
  | _ => rfl

/-! ## Macro calls on a tape -/

def Calls (t : Tape) (c : MacroCall) : Prop := ∃ i, .call c ∈ (t.block i).ops

variable {c : MacroCall}

theorem not_calls_new {id : TapeId} {kind : TapeKind} {singular : Bool} {root : NodeId} :
    ¬(Tape.new id name kind singular root).Calls c := by
  rintro ⟨i, hi⟩
  revert hi
  refine forall_block (P := fun b => .call c ∈ b.ops → False) nofun ?_ i
  intro b hb
  obtain rfl := Array.mem_singleton.1 hb
  exact nofun

theorem Calls.of_modifyBlock (hf : .call c ∈ (f (t.block id)).ops → .call c ∈ (t.block id).ops)
    (h : (t.modifyBlock id f).Calls c) : t.Calls c := by
  obtain ⟨i, hi⟩ := h
  rw [block_modifyBlock] at hi
  split at hi
  · exact ⟨id, hf hi⟩
  · exact ⟨i, hi⟩

theorem Calls.of_setTarget {target : BlockId} (h : (t.modifyBlock id (·.setTarget target)).Calls c) :
    t.Calls c :=
  h.of_modifyBlock fun hc => hc

theorem Calls.of_startBlock {scope : Option BlockId} {exit : Option Exit} {node : NodeId}
    (h : (t.startBlock name scope exit node).2.Calls c) : t.Calls c := by
  obtain ⟨name', pool, hblock⟩ := block_startBlock t name scope exit node
  obtain ⟨i, hi⟩ := h
  rw [hblock] at hi
  have hops : .call c ∈ (if i = t.blocks.size then { name := name', scope, pool, node }
      else if i = t.active ∧ t.active < t.blocks.size then (t.block t.active).close exit
      else t.block i : Block).ops := by
    simp only [] at hi
    split at hi <;> exact hi
  split at hops
  · cases hops
  · split at hops
    · rw [Block.ops_close] at hops
      exact ⟨t.active, hops⟩
    · exact ⟨i, hops⟩

theorem Calls.of_closeTape (ht : t.Sound) (h : (closeTape t).Calls c) : t.Calls c := by
  obtain ⟨i, hi⟩ := h
  by_cases hlt : i < t.blocks.size
  · rw [block_closeTape t hlt] at hi
    replace hi : .call c ∈ (t.closed.block i).ops := hi
    rw [block_closed t hlt, Block.ops_close] at hi
    refine ⟨i, ?_⟩
    split at hi
    · rcases mem_append.1 hi with hi | hi
      · cases (ht.prologue _ hi).2
      · exact hi
    · exact hi
  · rw [block_of_size_le (by rw [size_closeTape]; exact Nat.le_of_not_lt hlt)] at hi
    cases hi

theorem Calls.of_place (h : Calls { t with blocks := (Layout.resolve t.blocks.toList).2.toArray } c) :
    t.Calls c := by
  obtain ⟨i, hi⟩ := h
  revert hi
  refine forall_block (P := fun b => .call c ∈ b.ops → t.Calls c) nofun ?_ i
  intro b' hb' hc
  obtain ⟨b, hb, hplaced⟩ :=
    exists_left_of_forall₂ (Layout.placed_resolve t.blocks.toList) (mem_toArray.1 hb')
  obtain ⟨j, -, rfl⟩ := exists_block_of_mem (Array.mem_toList_iff.1 hb)
  obtain ⟨op, hop, huse⟩ := exists_left_of_forall₂ hplaced.ops hc
  rcases huse with rfl | ⟨_, _, _, hinst⟩
  · exact ⟨j, hop⟩
  · cases hinst

theorem Calls.of_declare (h : (t.declare is).Calls c) : t.Calls c := by
  refine h.of_modifyBlock ?_
  intro hc
  simp only [Block.insertAtEnd, mem_append, mem_map] at hc
  rcases hc with (hc | ⟨i, -, hi⟩) | hc
  · exact mem_of_mem_take hc
  · cases hi
  · exact mem_of_mem_drop hc

theorem Edit.calls_cases (h : Edit options calls t t') (ht : t.Sound) (hc : t'.Calls c) :
    t.Calls c ∨ calls := by
  cases h with
  | note h =>
    obtain ⟨i, hi⟩ := hc
    rw [block, h.blocks] at hi
    exact .inl ⟨i, hi⟩
  | registers | prologue => exact .inl hc
  | push hb hopen hop hcall =>
    by_cases h : calls
    · exact .inr h
    · refine .inl (hc.of_modifyBlock ?_)
      intro hmem
      rcases mem_append.1 hmem with hmem | hmem
      · exact hmem
      · rw [← mem_singleton.1 hmem] at hcall
        exact absurd (hcall rfl) h
  | startBlock hb hscope => exact .inl hc.of_startBlock
  | openLoop | endLoop | beginIf | beginFunction | endFunction =>
    exact .inl (Calls.of_startBlock hc)
  | @beginElse name cond group node outer rest hb hscopes =>
    have hstart : ((t.startBlock name (some cond) (some ⟨.always, none⟩) node).2.modifyBlock cond
        (·.setTarget t.blocks.size)).Calls c := hc
    exact .inl hstart.of_setTarget.of_startBlock
  | @endIf name cond group outer thenEnd rest hb hscopes =>
    have hstart : ((t.startBlock name (some cond) none outer).2.modifyBlock (thenEnd.getD cond)
        (·.setTarget t.blocks.size)).Calls c := hc
    exact .inl hstart.of_setTarget.of_startBlock
  | close hb hscopes => exact .inl (hc.of_closeTape ht)
  | setOps hstate hops =>
    refine .inl (hc.of_modifyBlock ?_)
    intro hmem
    cases (hops _ hmem).2
  | declare hstate his => exact .inl hc.of_declare
  | place hstate => exact .inl hc.of_place
  | allocate hstate his husage hplace => exact .inl (Calls.of_declare (Calls.of_place hc))
  | encode hstate hname hphysical hcode hcount husage hrequired =>
    obtain ⟨i, hi⟩ := hc
    revert hi
    refine forall_block (P := fun b => .call c ∈ b.ops → _) (by rintro ⟨⟩) ?_ i
    intro b' hb' hc
    obtain ⟨b, -, rfl⟩ := Array.mem_map.1 (Array.mem_filter.1 hb').1
    cases hc

theorem Edit.covers (h : Edit options calls t t') (ht : t.Sound) : Covers t.regs t'.regs := by
  have hvalid := (h.sound ht).valid
  have hsame (heq : t'.regs = t.regs) : Covers t.regs t'.regs := by
    rw [heq]
    exact ht.valid.covers
  cases h with
  | note h => exact hsame h.regs
  | registers hstate hg => exact hg
  | startBlock | openLoop | endLoop | beginIf | beginElse | endIf | beginFunction | endFunction =>
    exact hsame (regs_startBlock ..)
  | close hb hscopes => exact (sameShape_closeTape t).covers ht.valid
  | allocate hstate his husage hplace => exact (sameShape_assignRegisters ..).covers ht.valid
  | _ => exact hsame rfl

theorem Edit.mono {calls' : Prop} (himp : calls → calls') (h : Edit options calls t t') :
    Edit options calls' t t' := by
  cases h with
  | note h => exact .note h
  | registers hstate hg => exact .registers hstate hg
  | push hb hopen hop hcall => exact .push hb hopen hop fun h => himp (hcall h)
  | prologue hi => exact .prologue hi
  | startBlock hb hscope => exact .startBlock hb hscope
  | openLoop hb => exact .openLoop hb
  | endLoop hb hscopes hcond => exact .endLoop hb hscopes hcond
  | beginIf hb hcond => exact .beginIf hb hcond
  | beginElse hb hscopes => exact .beginElse hb hscopes
  | endIf hb hscopes => exact .endIf hb hscopes
  | beginFunction hb => exact .beginFunction hb
  | endFunction hb hscopes => exact .endFunction hb hscopes
  | close hb hscopes => exact .close hb hscopes
  | setOps hstate hops => exact .setOps hstate hops
  | declare hstate his => exact .declare hstate his
  | place hstate => exact .place hstate
  | allocate hstate his husage hplace => exact .allocate hstate his husage hplace
  | encode hstate hname hphysical hcode hcount husage hrequired =>
    exact .encode hstate hname hphysical hcode hcount husage hrequired

/-! ## Sequences of edits -/

def Edits (options : Options) (calls : Prop) : Tape → Tape → Prop :=
  Relation.ReflTransGen (Edit options calls)

namespace Edits

theorem sound (h : Edits options calls t t') (ht : t.Sound) : t'.Sound := by
  induction h with
  | refl => exact ht
  | tail _ h ih => exact h.sound ih

theorem id_eq (h : Edits options calls t t') : t'.id = t.id := by
  induction h with
  | refl => rfl
  | tail _ h ih => exact h.id_eq.trans ih

theorem covers (h : Edits options calls t t') (ht : t.Sound) : Covers t.regs t'.regs := by
  induction h with
  | refl => exact ht.valid.covers
  | tail hs h ih =>
    have hlast := h.covers (sound hs ht)
    exact ⟨ih.toKeeps.trans hlast.toKeeps, hlast.valid⟩

theorem calls_cases (h : Edits options calls t t') (ht : t.Sound) (hc : t'.Calls c) :
    t.Calls c ∨ calls := by
  induction h with
  | refl => exact .inl hc
  | tail hs h ih =>
    rcases h.calls_cases (sound hs ht) hc with hc | hcalls
    · exact ih hc
    · exact .inr hcalls

theorem mono {calls' : Prop} (himp : calls → calls') (h : Edits options calls t t') :
    Edits options calls' t t' := by
  induction h with
  | refl => exact .refl
  | tail _ h ih => exact ih.tail (h.mono himp)

end Edits

end Tape

end SecureTape
