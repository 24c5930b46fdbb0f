import SecureTape.Proofs.Builders

/-!
# Actions that leave the flow of a program as it is

Most actions that build a program start no block, call no tape and add no requirement node. Main
statements:
1. `Program.Quiet`: the properties of programs that such actions cannot break.
2. `Program.Quiet.emit`, `Program.Quiet.malloc` and so on: the actions maintain them.
-/

namespace SecureTape

open Action Program

/-! ## Plain instructions -/

variable {i : Instruction} {opcode : Opcode} {t : Tape} {I : Program → Prop} {f : Program → Program}

namespace Instruction

def callee? (i : Instruction) : Option TapeId :=
  if i.opcode = .callTape then (i.operands.head?.bind Operand.number?).map Int.toNat else none

/-- Control goes on behind the instruction, and in no other tape meanwhile. -/
def Plain (i : Instruction) : Prop := i.opcode.isJump = false ∧ i.opcode ≠ .callTape

theorem Plain.callee?_eq_none (h : i.Plain) : i.callee? = none := if_neg h.2

theorem plain_of_make {domain : FieldDomain} {size : Nat} {operands : List Operand}
    {regs : RegisterFile} (hjump : opcode.isJump = false) (hcall : opcode ≠ .callTape)
    (h : make opcode domain size operands regs = .ok i) : i.Plain := by
  obtain ⟨-, -, -, -, -, rfl⟩ := of_make_eq_ok h
  exact ⟨hjump, hcall⟩

end Instruction

namespace Tape

def append (t : Tape) (op : Op) : Tape :=
  t.modifyBlock t.active fun b => { b with ops := b.ops ++ [op] }

theorem node_push (t : Tape) (op : Op) : (t.append op).activeBlock.node = t.activeBlock.node := by
  show ((t.append op).block t.active).node = _
  rw [append, block_modifyBlock]
  split <;> rfl

/-- The tapes differ at most in what is noted beside the code, and in registers. -/
structure SameFrame (t t' : Tape) : Prop where
  blocks : t'.blocks = t.blocks
  active : t'.active = t.active
  root : t'.root = t.root
  scopes : t'.scopes = t.scopes
  state : t'.state = t.state
  prologue : t'.prologue = t.prologue

theorem SameFrame.block_eq {t' : Tape} (h : SameFrame t t') : t'.block = t.block := by
  unfold block
  rw [h.blocks]

end Tape

namespace BuildM

variable {p q : Program}

/-! ## Looking at a program -/

theorem reads_building : Reads building :=
  Reads.get.bind fun _ => .ite _ .throw_bind (.pure _)

theorem reads_activeNode : Reads activeNode := reads_building.map _

theorem reads_activePool : Reads activePool := reads_building.map _

theorem reads_tape (id : TapeId) : Reads (tape id) := by
  refine Reads.get.bind fun p => ?_
  split
  · exact .pure _
  · exact .throw _

theorem reads_registerInfo (r : Reg) : Reads (registerInfo r) :=
  Reads.get.bind fun _ => .ite _ .throw_bind (.pure _)

theorem reads_checkVectorSize (size : Nat) : Reads (checkVectorSize size) := by
  unfold checkVectorSize
  exact .ite _ .throw_bind (Reads.get.bind fun _ => .ite _ (.throw _) (.pure _))

theorem reads_checkCondition (opcode : Opcode) (cond : Reg) : Reads (checkCondition opcode cond) :=
  (reads_registerInfo cond).bind fun _ => .ite _ .throw_bind (.ite _ (.throw _) (.pure _))

theorem reads_callGroup (callee : TapeId) (a : CallArgument) : Reads (callGroup callee a) := by
  refine Reads.get.bind fun p => .ite _ .throw_bind ((reads_registerInfo _).bind fun info => ?_)
  simp only []
  split
  · exact Reads.get.bind fun _ => .throw _
  · exact .pure _

theorem of_run_building (h : building.run p = (.ok t, q)) :
    t = p.currentTape ∧ p.currentTape.isBuilding := by
  have hmeets : Meets (fun _ _ => True) building p
      fun t _ => t = p.currentTape ∧ p.currentTape.isBuilding = true := by
    refine .get_bind ?_
    simp only []
    split
    · exact .throw_bind trivial
    · rename_i hb
      exact .pure trivial ⟨rfl, Decidable.not_not.1 hb⟩
  exact hmeets.result t q h

theorem run_activeNode (hb : p.currentTape.isBuilding) :
    activeNode.run p = (.ok p.currentTape.activeBlock.node, p) :=
  run_bind_ok (run_building hb) _

theorem of_run_activeNode {node : NodeId} (h : activeNode.run p = (.ok node, q)) :
    node = p.currentTape.activeBlock.node ∧ p.currentTape.isBuilding := by
  obtain ⟨t, p', hbuilding, hpure⟩ := of_run_bind_ok h
  obtain ⟨rfl, hb⟩ := of_run_building hbuilding
  cases hpure
  exact ⟨rfl, hb⟩

theorem of_run_tape {id : TapeId} (h : (tape id).run p = (.ok t, q)) :
    id < p.tapes.size ∧ t = p.tapeAt id := by
  have hmeets : Meets (fun _ _ => True) (tape id) p
      fun t _ => id < p.tapes.size ∧ t = p.tapeAt id := by
    refine .get_bind ?_
    split
    · rename_i t ht
      obtain ⟨hid, rfl⟩ := Array.getElem?_eq_some_iff.1 ht
      refine .pure trivial ⟨hid, ?_⟩
      simp [tapeAt, hid]
    · exact .throw trivial
  exact hmeets.result t q h

theorem pushInstruction_cases (p : Program) (opcode : Opcode) (domain : FieldDomain) (size : Nat)
    (operands : List Operand) :
    (∃ e, (pushInstruction opcode domain size operands).run p = (.error e, p)) ∨
      ∃ i, Instruction.make opcode domain size operands p.currentTape.regs = .ok i ∧
        p.currentTape.isBuilding = true ∧
        (pushInstruction opcode domain size operands).run p =
          (.ok ⟨⟩, p.modifyTape p.current fun _ => p.currentTape.append (.inst i)) := by
  rcases hbuilding : building.run p with ⟨e | t, q⟩
  · refine .inl ⟨e, ?_⟩
    rw [pushInstruction, run_bind_error hbuilding, reads_building.run_eq hbuilding]
  · have hq := reads_building.run_eq hbuilding
    subst hq
    obtain ⟨rfl, hb⟩ := of_run_building hbuilding
    rw [pushInstruction, run_bind_ok hbuilding]
    cases hmake : Instruction.make opcode domain size operands q.currentTape.regs with
    | error e => exact .inl ⟨e, rfl⟩
    | ok i =>
      rw [run_bind_ok (run_liftM (Except.ok i) q), pushOp, run_bind_ok hbuilding]
      cases hpush : q.currentTape.push (.inst i) with
      | error e => exact .inl ⟨e, rfl⟩
      | ok t =>
        obtain ⟨-, -, rfl⟩ := of_push_eq_ok hpush
        exact .inr ⟨i, rfl, hb, rfl⟩

theorem maintains_attempt {α : Type} {act : BuildM α} (h : Maintains I act) :
    Maintains I (attempt act) := h

theorem maintains_between {α : Type} {g : Program → Program}
    (hf : Maintains I (modify f : BuildM PUnit))
    (hg : Maintains I (modify g : BuildM PUnit)) {act : BuildM α} (h : Maintains I act) :
    Maintains I (do
      modify f
      let result ← attempt act
      modify g
      liftM result : BuildM α) :=
  hf.bind fun _ => (maintains_attempt h).bind fun result => hg.bind fun _ =>
    (Reads.liftM result).maintains

end BuildM

/-! ## Quiet properties -/

namespace Program

/-- The programs differ at most in settings, in the heaps and in the threads. -/
structure SameWork (p q : Program) : Prop where
  tapes : q.tapes = p.tapes
  tree : q.tree = p.tree
  current : q.current = p.current
  options : q.options = p.options
  templates : ∀ key, q.macros.lookup key = p.macros.lookup key
  macroTapes : q.macroTapes = p.macroTapes

theorem SameWork.of_eq {p q : Program} (h : q = { q.withCode p with tree := p.tree }) :
    SameWork p q := by
  rw [h]
  exact ⟨rfl, rfl, rfl, rfl, fun _ => rfl, rfl⟩

section Settings

variable {α : Type} {I : Program → Prop} {act : BuildM α}
  (hset : ∀ {f : Program → Program}, (∀ p, SameWork p (f p)) → Maintains I (modify f : BuildM PUnit))

include hset

theorem maintains_withVectorSize (size : Nat) (h : Maintains I act) :
    Maintains I (BuildM.withVectorSize size act) :=
  (BuildM.reads_checkVectorSize size).maintains.bind fun _ => .get_bind fun _ =>
    BuildM.maintains_between (hset fun _ => .of_eq rfl) (hset fun _ => .of_eq rfl) h

theorem maintains_withDomain (domain : FieldDomain) (h : Maintains I act) :
    Maintains I (BuildM.withDomain domain act) :=
  .get_bind fun _ => BuildM.maintains_between (hset fun _ => .of_eq rfl) (hset fun _ => .of_eq rfl) h

end Settings

/-- The property does not depend on settings, heaps and threads, nor on notes and registers of a
tape. It holds still if a plain instruction or a count is added. -/
structure Quiet (I : Program → Prop) : Prop where
  aside : ∀ {p q : Program}, I p → SameWork p q → I q
  note : ∀ {p : Program} {id : TapeId} {f : Tape → Tape}, I p →
    Tape.SameFrame (p.tapeAt id) (f (p.tapeAt id)) → I (p.modifyTape id f)
  push : ∀ {p : Program} {i : Instruction}, I p → p.currentTape.isBuilding = true → i.Plain →
    I (p.modifyTape p.current fun _ => p.currentTape.append (.inst i))
  prologue : ∀ {p : Program} {i : Instruction}, I p → i.Plain →
    I (p.modifyTape p.current fun t => { t with prologue := t.prologue ++ [.inst i] })
  increment : ∀ {p : Program} (r : Resource) (n : Count), I p → p.currentTape.isBuilding = true →
    I { p with tree := p.tree.increment p.currentTape.activeBlock.node r n }
  aggregate : ∀ {p : Program} {id : TapeId}, I p → id < p.tapes.size →
    I { p with tree := (p.tree.aggregate (p.tapeAt id).root).2 }

namespace Quiet

open BuildM

variable {I : Program → Prop} (hI : Quiet I)

include hI

theorem onRegisters {α : Type} (id : TapeId) (act : RegisterM α) :
    Maintains I (onRegisters id act) :=
  fun _ h => hI.note h ⟨rfl, rfl, rfl, rfl, rfl, rfl⟩

theorem modifyCurrent {f : Tape → Tape} (hf : ∀ t, Tape.SameFrame t (f t)) :
    Maintains I (modifyCurrent f) :=
  fun _ h => hI.note h (hf _)

theorem modify (hf : ∀ p, SameWork p (f p)) :
    Maintains I (modify f : BuildM PUnit) :=
  fun p h => hI.aside h (hf p)

theorem withVectorSize {α : Type} (size : Nat) {act : BuildM α} (h : Maintains I act) :
    Maintains I (BuildM.withVectorSize size act) :=
  maintains_withVectorSize hI.modify size h

theorem withDomain {α : Type} (domain : FieldDomain) {act : BuildM α} (h : Maintains I act) :
    Maintains I (BuildM.withDomain domain act) :=
  maintains_withDomain hI.modify domain h

/-! ### Registers -/

theorem createRegister (cls : RegisterClass) (size : Nat) :
    Maintains I (createRegister cls size) :=
  .get_bind fun _ => reads_building.maintains.bind fun _ =>
    .get_bind fun _ => hI.onRegisters _ _

theorem newVector (cls : RegisterClass) (size : Nat) : Maintains I (newVector cls size) :=
  (reads_checkVectorSize size).maintains.bind fun _ => hI.createRegister cls size

theorem newInteger : Maintains I newInteger :=
  reads_building.maintains.bind fun _ => .get_bind fun _ => hI.onRegisters _ _

theorem view (r : Reg) (start size : Nat) : Maintains I (view r start size) :=
  (reads_registerInfo r).maintains.bind fun _ => reads_building.maintains.bind fun _ =>
    .get_bind fun _ => hI.onRegisters _ _

theorem link (a b : Reg) : Maintains I (link a b) := by
  refine .get_bind fun p => .ite _ .throw_bind ?_
  refine (reads_registerInfo a).maintains.bind fun _ => (reads_registerInfo b).maintains.bind fun _ =>
    reads_building.maintains.bind fun t => (Reads.liftM _).maintains.bind fun regs => ?_
  exact hI.modifyCurrent fun _ => ⟨rfl, rfl, rfl, rfl, rfl, rfl⟩

theorem tapeParameter (cls : RegisterClass) (size : Nat) :
    Maintains I (tapeParameter cls size) := by
  refine (reads_checkVectorSize size).maintains.bind fun _ => reads_building.maintains.bind fun _ =>
    .get_bind fun _ => (hI.onRegisters _ _).bind fun r => ?_
  exact .bind (hI.modifyCurrent fun _ => ⟨rfl, rfl, rfl, rfl, rfl, rfl⟩) fun _ => .pure _

/-! ### Instructions -/

theorem pushInstruction (hjump : opcode.isJump = false) (hcall : opcode ≠ .callTape)
    (domain : FieldDomain) (size : Nat) (operands : List Operand) :
    Maintains I (pushInstruction opcode domain size operands) := by
  intro p h
  rcases pushInstruction_cases p opcode domain size operands with ⟨e, hrun⟩ | ⟨i, hi, hb, hrun⟩
  · rw [hrun]
    exact h
  · rw [hrun]
    exact hI.push h hb (Instruction.plain_of_make hjump hcall hi)

theorem emit (hjump : opcode.isJump = false) (hcall : opcode ≠ .callTape) (operands : List Operand) :
    Maintains I (emit opcode operands) := by
  refine .get_bind fun p => ?_
  simp only []
  split
  · exact ((reads_registerInfo _).map _).maintains.bind fun _ => hI.pushInstruction hjump hcall _ _ _
  · exact (Reads.pure _).maintains.bind fun _ => hI.pushInstruction hjump hcall _ _ _

theorem pushPrologue (opcode : Opcode) (hjump : opcode.isJump = false) (hcall : opcode ≠ .callTape)
    (operands : List Operand) : Maintains I (pushPrologue opcode operands) := by
  refine Reads.get.maintains_bind fun p q _ h => ?_
  refine (Reads.liftM _).maintains_bind (fun p i hi h => ?_) p h
  have hmake : Instruction.make opcode .base 1 operands q.currentTape.regs = .ok i :=
    congrArg Prod.fst hi
  exact hI.prologue h (Instruction.plain_of_make hjump hcall hmake)

theorem threadAddress (base stride : Nat) : Maintains I (threadAddress base stride) := by
  refine reads_building.maintains.bind fun t => ?_
  split
  · exact .pure _
  · refine hI.newInteger.bind fun argument => hI.newInteger.bind fun step => ?_
    refine hI.newInteger.bind fun offset => hI.newInteger.bind fun start => ?_
    refine hI.newInteger.bind fun addr => (hI.pushPrologue .ldarg rfl (by decide) _).bind fun _ => ?_
    refine (hI.pushPrologue .ldint rfl (by decide) _).bind fun _ => ?_
    refine (hI.pushPrologue .mulint rfl (by decide) _).bind fun _ => ?_
    refine (hI.pushPrologue .ldint rfl (by decide) _).bind fun _ => ?_
    refine (hI.pushPrologue .addint rfl (by decide) _).bind fun _ => ?_
    exact .bind (hI.modifyCurrent fun _ => ⟨rfl, rfl, rfl, rfl, rfl, rfl⟩) fun _ => .pure _

/-! ### Memory and requirements -/

theorem onHeap {α : Type} (act : HeapM α) : Maintains I (onHeap act) := by
  refine .get_bind fun p => Maintains.bind ?_ fun _ => ?_
  · exact hI.modify fun _ => .of_eq rfl
  · split
    · exact .pure _
    · exact .throw _

theorem malloc (cls : RegisterClass) (size : Nat) : Maintains I (malloc cls size) := by
  refine reads_building.maintains.bind fun t => ?_
  split
  · exact hI.onHeap _
  · split
    · exact hI.onHeap _
    · exact .throw_bind

theorem free (cls : RegisterClass) (addr : Nat) : Maintains I (free cls addr) :=
  reads_activePool.maintains.bind fun _ => .get_bind fun _ => hI.onHeap _

theorem flushMemory : Maintains I flushMemory :=
  hI.modify fun _ => .of_eq rfl

theorem incrementRequirement (r : Resource) (n : Count) :
    Maintains I (incrementRequirement r n) := by
  refine reads_activeNode.maintains_bind fun p node hnode h => ?_
  obtain ⟨rfl, hb⟩ := of_run_activeNode hnode
  exact hI.increment r n h hb

theorem requireBitLength (bits : Nat) (domain : FieldDomain) :
    Maintains I (BuildM.requireBitLength bits domain) := by
  have hnote (lengths : BitLengths) :
      Maintains I (BuildM.modifyCurrent ({ · with bitLengths := lengths })) :=
    hI.modifyCurrent fun _ => ⟨rfl, rfl, rfl, rfl, rfl, rfl⟩
  refine .get_bind fun p => reads_building.maintains.bind fun t => ?_
  simp only []
  split
  · split
    · exact .ite _ .throw_bind (hnote _)
    · exact hnote _
  · exact .ite _ .throw_bind (hnote _)

theorem requirements (id : TapeId) : Maintains I (requirements id) := by
  refine (reads_tape id).maintains_bind fun p t ht h => ?_
  obtain ⟨hid, rfl⟩ := of_run_tape ht
  exact hI.aggregate h hid

end Quiet

end Program

end SecureTape
