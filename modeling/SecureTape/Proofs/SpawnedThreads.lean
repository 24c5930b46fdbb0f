import SecureTape.Proofs.BuildSteps
import SecureTape.Proofs.FinishedTapes
import SecureTape.Proofs.ThreadTables

/-!
# Threads and the code that starts them

The table of threads follows the code: a thread runs once an instruction starts it, until another
waits for it. Main statements:
1. `Program.Threading.inStep`: whatever calls start and join threads, failed ones included, the
   running threads are those that the code starts and does not wait for.
2. `Program.Threading.sparse`: a tape that runs in one thread at a time does, if no call starts it
   while a thread of it runs.
-/

open SecureTape.Action

namespace SecureTape

open List

open Program

/-! ## The threads that code starts and waits for -/

variable {t : Tape} {new : List Instruction} {p q : Program}

/-- The numbers of the threads in the operands of an instruction that starts them. -/
def startedBy : List Operand → List Nat
  | .number n :: _ :: _ :: rest => n.toNat :: startedBy rest
  | _ => []

namespace Instruction

def started (i : Instruction) : List Nat := if i.opcode = .runTape then startedBy i.operands else []

def joined (i : Instruction) : List Nat :=
  if i.opcode = .joinTape then (i.operands.filterMap Operand.number?).map Int.toNat else []

end Instruction

namespace Program

/-- The instructions of all tapes. -/
def code (p : Program) : List Instruction := p.tapes.toList.flatMap Tape.code

/-- The threads that the code starts, each as often as it does. -/
def started (p : Program) : List Nat := p.code.flatMap Instruction.started

/-- The threads that the code waits for, each as often as it does. -/
def joined (p : Program) : List Nat := p.code.flatMap Instruction.joined

end Program

/-! ## Code that grows -/

theorem perm_flatMap_modify {α β : Type} {f : α → List β} {g : α → α} {x : α} {new : List β}
    {xs : List α} {i : Nat} (hx : xs[i]? = some x) (h : (f (g x)).Perm (f x ++ new)) :
    ((xs.modify i g).flatMap f).Perm (xs.flatMap f ++ new) := by
  induction xs generalizing i with
  | nil => cases hx
  | cons y xs ih =>
    cases i with
    | zero =>
      cases hx
      rw [modify_zero_cons, flatMap_cons, flatMap_cons, append_assoc]
      refine (h.append_right _).trans ?_
      rw [append_assoc]
      exact perm_append_comm.append_left _
    | succ i =>
      rw [modify_succ_cons, flatMap_cons, flatMap_cons, append_assoc]
      exact (ih hx).append_left _

theorem flatMap_modify_of_eq {α β : Type} {f : α → List β} {g : α → α} (h : ∀ x, f (g x) = f x)
    (xs : List α) (i : Nat) : (xs.modify i g).flatMap f = xs.flatMap f := by
  induction xs generalizing i with
  | nil => cases i <;> rfl
  | cons x xs ih =>
    cases i with
    | zero => rw [modify_zero_cons, flatMap_cons, flatMap_cons, h]
    | succ i => rw [modify_succ_cons, flatMap_cons, flatMap_cons, ih]

namespace Tape

theorem code_modifyBlock {f : Block → Block} (hf : ∀ b, (f b).ops = b.ops) (id : BlockId) :
    (t.modifyBlock id f).code = t.code := by
  unfold code modifyBlock
  rw [Array.toList_modify]
  exact flatMap_modify_of_eq (fun b => by rw [Block.instructions, hf]; rfl) _ _

theorem code_startBlock (t : Tape) (name : String) (scope : Option BlockId) (exit : Option Exit)
    (node : NodeId) : (t.startBlock name scope exit node).2.code = t.code := by
  obtain ⟨name', pool, heq⟩ := exists_startBlock_eq t name scope exit node
  have hpush : ((t.modifyBlock t.active (·.close exit)).pushBlock
      { name := name', scope, pool, node }).code = t.code := by
    rw [← code_modifyBlock (t := t) (f := (·.close exit)) (fun b => b.ops_close exit) t.active]
    simp [code, pushBlock, Block.instructions]
  rw [heq, ← hpush]
  cases scope with
  | none => rfl
  | some parent =>
    refine code_modifyBlock ?_ _
    intro b
    rfl

theorem perm_code_append (ht : t.active < t.blocks.size) (i : Instruction) :
    (t.append (.inst i)).code.Perm (t.code ++ [i]) := by
  unfold code append modifyBlock
  rw [Array.toList_modify]
  refine perm_flatMap_modify (x := t.blocks[t.active]) (by simp [ht]) ?_
  rw [Block.instructions, filterMap_append]
  exact .refl _

end Tape

namespace Program

theorem perm_code_modifyTape (hlt : p.current < p.tapes.size)
    (h : t.code.Perm (p.currentTape.code ++ new)) :
    (p.modifyTape p.current fun _ => t).code.Perm (p.code ++ new) := by
  unfold code modifyTape
  rw [Array.toList_modify]
  refine perm_flatMap_modify (x := p.currentTape) ?_ h
  simp [currentTape, tapeAt, hlt]

/-- The code of `q` is that of `p` with some new instructions, in the same tapes. -/
structure Adds (new : List Instruction) (p q : Program) : Prop where
  code : q.code.Perm (p.code ++ new)
  current : q.current = p.current
  size : q.tapes.size = p.tapes.size
  singular : ∀ id, (q.tapeAt id).singular = (p.tapeAt id).singular

namespace Adds

theorem trans {r : Program} {more : List Instruction} (h : Adds new p q) (h' : Adds more q r) :
    Adds (new ++ more) p r := by
  refine ⟨?_, h'.current.trans h.current, h'.size.trans h.size,
    fun id => (h'.singular id).trans (h.singular id)⟩
  rw [← append_assoc]
  exact h'.code.trans (h.code.append_right more)

theorem modifyTape (hlt : p.current < p.tapes.size)
    (hcode : t.code.Perm (p.currentTape.code ++ new))
    (hsingular : t.singular = p.currentTape.singular) :
    Adds new p (p.modifyTape p.current fun _ => t) := by
  refine ⟨perm_code_modifyTape hlt hcode, rfl, size_modifyTape .., fun id => ?_⟩
  rw [tapeAt_modifyTape]
  split
  · rename_i hid
    rw [hid.1]
    exact hsingular
  · rfl

theorem aside (htapes : q.tapes = p.tapes) (hcurrent : q.current = p.current) : Adds [] p q := by
  refine ⟨?_, hcurrent, by rw [htapes], fun id => by rw [tapeAt, htapes]; rfl⟩
  rw [Program.code, htapes, append_nil]
  exact .refl _

theorem startBlock (hlt : p.current < p.tapes.size) (name : String) (scope : Option BlockId)
    (exit : Option Exit) (node : NodeId) : Adds [] p (p.modifyTape p.current fun _ =>
      (p.currentTape.startBlock name scope exit node).2) := by
  refine modifyTape hlt ?_ ?_
  · rw [Tape.code_startBlock, append_nil]
  · cases scope <;> rfl

theorem current_lt (h : Adds new p q) (hlt : p.current < p.tapes.size) :
    q.current < q.tapes.size := by
  rw [h.current, h.size]
  exact hlt

theorem started (h : Adds new p q) :
    q.started.Perm (p.started ++ new.flatMap Instruction.started) := by
  rw [Program.started, Program.started, ← flatMap_append]
  exact h.code.flatMap_right _

theorem joined (h : Adds new p q) : q.joined.Perm (p.joined ++ new.flatMap Instruction.joined) := by
  rw [Program.joined, Program.joined, ← flatMap_append]
  exact h.code.flatMap_right _

end Adds

/-- The running threads are those that the code starts and does not wait for. -/
structure InStep (p : Program) : Prop where
  current_lt : p.current < p.tapes.size
  valid : p.threads.Valid
  perm : p.started.Perm (p.joined ++ p.threads.numbers)

theorem InStep.count_started (h : p.InStep) (n : Nat) :
    p.started.count n = p.joined.count n + if p.threads.isRunning n then 1 else 0 := by
  rw [h.perm.count_eq, count_append]
  congr 1
  split
  · rename_i hn
    exact count_eq_one_of_mem h.valid.nodup (ThreadTable.isRunning_iff.1 hn)
  · rename_i hn
    exact count_eq_zero_of_not_mem fun hmem => hn (ThreadTable.isRunning_iff.2 hmem)

open scoped List in
theorem InStep.adds {new : List Instruction} (h : p.InStep) (hnew : Adds new p q)
    (hvalid : q.threads.Valid)
    (hperm : new.flatMap Instruction.started ++ p.threads.numbers ~
      new.flatMap Instruction.joined ++ q.threads.numbers) : q.InStep := by
  refine ⟨by rw [hnew.current, hnew.size]; exact h.current_lt, hvalid, ?_⟩
  calc q.started ~ p.started ++ new.flatMap Instruction.started := hnew.started
    _ ~ p.joined ++ p.threads.numbers ++ new.flatMap Instruction.started := h.perm.append_right _
    _ ~ p.joined ++ (new.flatMap Instruction.started ++ p.threads.numbers) := by
      rw [append_assoc]
      exact perm_append_comm.append_left _
    _ ~ p.joined ++ new.flatMap Instruction.joined ++ q.threads.numbers := by
      rw [append_assoc]
      exact hperm.append_left _
    _ ~ q.joined ++ q.threads.numbers := hnew.joined.symm.append_right _

end Program

/-! ## Calls that start threads -/

namespace BuildM

/-- The current tape takes instructions. -/
structure Ready (p : Program) : Prop where
  current_lt : p.current < p.tapes.size
  building : p.currentTape.isBuilding = true
  active_lt : p.currentTape.active < p.currentTape.blocks.size
  isOpen : p.currentTape.activeBlock.isOpen = true

theorem continueBlock_cases (hlt : p.current < p.tapes.size) (name : String) :
    (∃ e, (discard (continueBlock name) : BuildM PUnit).run p = (.error e, p) ∧
        p.currentTape.isBuilding = false) ∨
      ∃ q, (discard (continueBlock name) : BuildM PUnit).run p = (.ok ⟨⟩, q) ∧ Ready q ∧
        Adds [] p q ∧ q.threads = p.threads ∧ q.currentTape.regs = p.currentTape.regs := by
  rcases hrun : building.run p with ⟨e | t, q⟩
  · refine .inl ⟨e, ?_, ?_⟩
    · show ((fun _ => PUnit.unit) <$> continueBlock name).run p = _
      rw [run_map, continueBlock, run_bind_error hrun, reads_building.run_eq hrun]
      rfl
    · by_contra hb
      rw [run_building (Bool.eq_true_of_not_eq_false hb)] at hrun
      cases hrun
  · obtain ⟨rfl, hb⟩ := of_run_building hrun
    have hstart := run_startBlock hb name (some p.currentTape.active) none
      p.currentTape.activeBlock.node
    refine .inr ⟨_, run_discard_ok ((run_bind_ok (run_building hb) _).trans hstart), ?_,
      .startBlock hlt .., rfl, ?_⟩
    · refine ⟨by rw [size_modifyTape]; exact hlt, ?_, ?_, ?_⟩
      · rw [currentTape_modifyTape hlt, Tape.isBuilding, Tape.state_startBlock]
        exact hb
      · rw [currentTape_modifyTape hlt, Tape.active_startBlock, Tape.size_startBlock]
        exact Nat.lt_succ_self _
      · obtain ⟨name', pool, hblock⟩ := Tape.block_startBlock p.currentTape name
          (some p.currentTape.active) none p.currentTape.activeBlock.node
        rw [currentTape_modifyTape hlt, Tape.activeBlock, Tape.active_startBlock, hblock, if_pos rfl]
        simp only []
        split <;> rfl
    · rw [currentTape_modifyTape hlt, Tape.regs_startBlock]

theorem Ready.pushInstruction_cases (h : Ready p) (opcode : Opcode) (operands : List Operand) :
    (∃ e, (pushInstruction opcode .base 1 operands).run p = (.error e, p) ∧
        Instruction.make opcode .base 1 operands p.currentTape.regs = .error e) ∨
      ∃ i q, (pushInstruction opcode .base 1 operands).run p = (.ok ⟨⟩, q) ∧
        Instruction.make opcode .base 1 operands p.currentTape.regs = .ok i ∧ Ready q ∧
        Adds [i] p q ∧ q.threads = p.threads := by
  rw [pushInstruction, run_bind_ok (run_building h.building)]
  cases hmake : Instruction.make opcode .base 1 operands p.currentTape.regs with
  | error e => exact .inl ⟨e, rfl, rfl⟩
  | ok i =>
    have hpush : p.currentTape.push (.inst i) = .ok (p.currentTape.append (.inst i)) := by
      simp [Tape.push, h.building, h.isOpen, Tape.append]
    refine .inr ⟨i, p.modifyTape p.current fun _ => p.currentTape.append (.inst i), ?_, rfl, ?_,
      .modifyTape h.current_lt (Tape.perm_code_append h.active_lt i) rfl, rfl⟩
    · rw [run_bind_ok (run_liftM (Except.ok i) p), pushOp, run_bind_ok (run_building h.building),
        hpush]
      rfl
    · refine ⟨by rw [size_modifyTape]; exact h.current_lt, ?_, ?_, ?_⟩
      · rw [currentTape_modifyTape h.current_lt]
        exact h.building
      · rw [currentTape_modifyTape h.current_lt, Tape.append, Tape.size_modifyBlock]
        exact h.active_lt
      · rw [currentTape_modifyTape h.current_lt]
        show ((p.currentTape.append (.inst i)).block p.currentTape.active).isOpen = true
        rw [Tape.append, Tape.block_modifyBlock, if_pos ⟨rfl, h.active_lt⟩]
        exact h.isOpen

variable {starts : List ThreadStart} {threads : List Nat}

/-- A tape that runs in one thread at a time is started once at most. -/
theorem count_le_of_run_checkStarts {seen : List TapeId} {roots : List NodeId}
    (h : (checkStarts seen starts).run p = (.ok roots, q)) {id : TapeId}
    (hsingular : (p.tapeAt id).singular) :
    (starts.map (·.tape)).count id ≤ if id ∈ seen then 0 else 1 := by
  induction starts generalizing q seen roots with
  | nil => exact Nat.zero_le _
  | cons start rest ih =>
    obtain ⟨-, -, hseen, roots', hrest, -⟩ := Tracked.of_run_checkStarts_cons h
    have hle := ih hrest
    rw [map_cons, count_cons]
    by_cases hstart : start.tape = id
    · subst hstart
      rw [if_pos hsingular, if_pos (.head _)] at hle
      rw [if_neg (fun hmem => hseen ⟨hsingular, hmem⟩)]
      simpa using hle
    · have hmem : (id ∈ if (p.tapeAt start.tape).singular then start.tape :: seen else seen) ↔
          id ∈ seen := by
        split
        · simp [Ne.symm hstart]
        · exact .rfl
      simpa [hstart, hmem] using hle

theorem run_acquireThreads (starts : List ThreadStart) (p : Program) :
    (starts.mapM fun start => acquireThread start.tape).run p =
      (.ok (p.threads.acquireAll (starts.map (·.tape))).1,
        { p with threads := (p.threads.acquireAll (starts.map (·.tape))).2 }) := by
  induction starts generalizing p with
  | nil => rfl
  | cons start rest ih =>
    rw [mapM_cons]
    refine (run_bind_ok rfl _).trans ((run_bind_ok (ih _) _).trans ?_)
    rfl

def startOperands (threads : List Nat) (starts : List ThreadStart) : List Operand :=
  (threads.zip starts).flatMap fun (thread, start) =>
    [.number thread, .number start.tape, .number start.argument]

theorem startedBy_startOperands (h : threads.length = starts.length) :
    startedBy (startOperands threads starts) = threads := by
  induction threads generalizing starts with
  | nil => rfl
  | cons thread threads ih =>
    cases starts with
    | nil => cases h
    | cons start starts => exact congrArg (thread :: ·) (ih (Nat.succ.inj h))

/-- What is left of a call that starts threads once they have their numbers. -/
def spawn (threads : List Nat) (starts : List ThreadStart) (roots : List NodeId) :
    BuildM (List Nat) := do
  discard <| continueBlock "pre-run-tape"
  pushInstruction .runTape .base 1 (startOperands threads starts)
  let node ← activeNode
  discard <| onTree (·.addGroup node .max roots)
  starts.forM fun start => do
    addCallee start.tape ((← get).tapeAt start.tape).bitLengths
  discard <| continueBlock "post-run-tape"
  return threads

theorem run_noteStarts (h : Ready p) (starts : List ThreadStart) (roots : List NodeId) : ∃ q,
    (do
      discard <| onTree (·.addGroup p.currentTape.activeBlock.node .max roots)
      starts.forM fun start => do
        addCallee start.tape ((← get).tapeAt start.tape).bitLengths : BuildM PUnit).run p =
      (.ok ⟨⟩, q) ∧ Adds [] p q ∧ q.threads = p.threads ∧ q.currentTape.isBuilding = true := by
  have hcallees (q : Program) (hlt : q.current < q.tapes.size) (merge : BitLengths → BitLengths) :
      Adds [] q (q.modifyTape q.current fun t => { t with
        bitLengths := merge t.bitLengths, callees := t.callees ++ starts.map (·.tape) }) := by
    rw [modifyTape_eq_const]
    refine .modifyTape hlt ?_ rfl
    rw [append_nil]
    exact .refl _
  have htree : Adds [] p
      { p with tree := (p.tree.addGroup p.currentTape.activeBlock.node .max roots).2 } := .aside rfl rfl
  obtain ⟨merge, hrun⟩ := Tracked.exists_run_addCallees starts
    { p with tree := (p.tree.addGroup p.currentTape.activeBlock.node .max roots).2 }
  refine ⟨_, (run_bind_ok (run_discard_ok (run_onTree _ p)) _).trans hrun,
    htree.trans (hcallees _ (htree.current_lt h.current_lt) merge), rfl, ?_⟩
  rw [currentTape_modifyTape (htree.current_lt h.current_lt)]
  exact h.building

/-- Threads that have their numbers are started by one new instruction, unless it cannot be made. -/
theorem spawn_cases (hlt : p.current < p.tapes.size) (threads : List Nat)
    (starts : List ThreadStart) (roots : List NodeId) :
    (∃ e q, (spawn threads starts roots).run p = (.error e, q) ∧ (p.currentTape.isBuilding = false ∨
        ∃ fault, Instruction.make .runTape .base 1 (startOperands threads starts)
          p.currentTape.regs = .error fault)) ∨
      ∃ i q, (spawn threads starts roots).run p = (.ok threads, q) ∧
        Instruction.make .runTape .base 1 (startOperands threads starts) p.currentTape.regs = .ok i ∧
        Adds [i] p q ∧ q.threads = p.threads := by
  unfold spawn
  rcases continueBlock_cases hlt "pre-run-tape" with ⟨e, hrun, hb⟩ | ⟨p₁, hrun, hready, hadds,
    hthreads, hregs⟩
  · exact .inl ⟨e, p, run_bind_error hrun _, .inl hb⟩
  rw [run_bind_ok hrun, ← hregs]
  rcases hready.pushInstruction_cases .runTape (startOperands threads starts) with
    ⟨e, hrun, hmake⟩ | ⟨i, p₂, hrun, hmake, hready₂, hadds₂, hthreads₂⟩
  · exact .inl ⟨e, p₁, run_bind_error hrun _, .inr ⟨e, hmake⟩⟩
  rw [run_bind_ok hrun, run_bind_ok (run_activeNode hready₂.building)]
  -- the group and the callees are noted, and a last block starts
  obtain ⟨p₃, hrun₃, hadds₃, hthreads₃, hb₃⟩ := run_noteStarts hready₂ starts roots
  rw [← bind_assoc, run_bind_ok hrun₃]
  rcases continueBlock_cases (hadds₃.current_lt hready₂.current_lt) "post-run-tape" with
    ⟨e, -, hb⟩ | ⟨q, hrun₄, -, hadds₄, hthreads₄, -⟩
  · rw [hb₃] at hb
    cases hb
  · refine .inr ⟨i, q, run_bind_ok hrun₄ _, hmake, ?_, ?_⟩
    · exact hadds.trans (hadds₂.trans (hadds₃.trans hadds₄))
    · rw [hthreads₄, hthreads₃, hthreads₂, hthreads]

/-- The tapes can be started: they are there, and those that run in one thread at a time are named
once. -/
structure CanStart (p : Program) (ids : List TapeId) : Prop where
  lt : ∀ id ∈ ids, id < p.tapes.size
  once : ∀ id, (p.tapeAt id).singular = true → ids.count id ≤ 1

theorem runTapes_cases (p : Program) (starts : List ThreadStart) :
    (∃ e, (runTapes starts).run p = (.error e, p)) ∨
      ∃ roots, CanStart p (starts.map (·.tape)) ∧ (runTapes starts).run p =
        (spawn (p.threads.acquireAll (starts.map (·.tape))).1 starts roots).run
          { p with threads := (p.threads.acquireAll (starts.map (·.tape))).2 } := by
  by_cases hkind : p.currentTape.kind ≠ .main
  · refine .inl ⟨.usage .nestedSpawn, ?_⟩
    rw [runTapes, run_get_bind, if_pos hkind]
    rfl
  · rcases hcheck : (checkStarts [] starts).run p with ⟨e | roots, q⟩
    · refine .inl ⟨e, ?_⟩
      rw [runTapes, run_get_bind, if_neg hkind, run_bind_error hcheck,
        (Tracked.reads_checkStarts [] starts).run_eq hcheck]
    · refine .inr ⟨roots, ⟨?_, fun id hid => ?_⟩, ?_⟩
      · exact fun id hid => ((Tracked.startable_of_run_checkStarts hcheck).2 id hid).1
      · exact count_le_of_run_checkStarts hcheck hid
      · rw [runTapes, run_get_bind, if_neg hkind, run_bind_ok hcheck,
          (Tracked.reads_checkStarts [] starts).run_eq hcheck,
            run_bind_ok (run_acquireThreads starts p)]
        rfl

/-! ## Code and table in step -/

theorem checkOperand_int {value : Int} (h : fitsSigned32 value) (regs : RegisterFile)
    (position : Nat) :
    Instruction.checkOperand .runTape 1 regs position .int (.number value) = .ok () := by
  simp [Instruction.checkOperand, checkNumber, h, Except.mapError]

theorem checkOperands_startOperands (hthreads : ∀ n ∈ threads, fitsSigned32 n)
    (hstarts : ∀ start ∈ starts, fitsSigned32 start.tape = true ∧ fitsSigned32 start.argument)
    (regs : RegisterFile) (position : Nat) :
    Instruction.checkOperands .runTape 1 regs position
      (List.replicate (threads.zip starts).length [OperandFormat.int, .int, .int]).flatten
      (startOperands threads starts) = .ok () := by
  induction threads generalizing starts position with
  | nil => rfl
  | cons thread threads ih =>
    cases starts with
    | nil => rfl
    | cons start starts =>
      obtain ⟨hthread, hthreads⟩ := forall_mem_cons.1 hthreads
      obtain ⟨⟨htape, hargument⟩, hstarts⟩ := forall_mem_cons.1 hstarts
      rw [zip_cons_cons, length_cons, replicate_succ, flatten_cons]
      refine Instruction.checkOperands_cons.2 ⟨checkOperand_int hthread regs position, ?_⟩
      refine Instruction.checkOperands_cons.2 ⟨checkOperand_int htape regs _, ?_⟩
      refine Instruction.checkOperands_cons.2 ⟨checkOperand_int hargument regs _, ?_⟩
      exact ih hthreads hstarts _

theorem exists_make_startOperands (hthreads : ∀ n ∈ threads, fitsSigned32 n)
    (hstarts : ∀ start ∈ starts, fitsSigned32 start.tape = true ∧ fitsSigned32 start.argument)
    (regs : RegisterFile) :
    ∃ i, Instruction.make .runTape .base 1 (startOperands threads starts) regs = .ok i := by
  have hlength : (startOperands threads starts).length = 3 * (threads.zip starts).length := by
    simp [startOperands, length_flatMap, Nat.mul_comm]
  have hformats : (Opcode.layout .runTape).formats? (startOperands threads starts).length =
      some (List.replicate (threads.zip starts).length [OperandFormat.int, .int, .int]).flatten := by
    rw [hlength]
    show OperandLayout.formats? (.grouped [] [.int, .int, .int]) _ = _
    simp [OperandLayout.formats?]
  refine ⟨_, Instruction.make_eq_ok (fun h => by cases h) (by decide) hformats ?_⟩
  rw [map_flatten, map_replicate]
  exact checkOperands_startOperands hthreads hstarts regs 0

theorem fitsSigned32_natCast {n : Nat} (h : n < 2 ^ 31) : fitsSigned32 n := by
  have hpow : (Nat.pow 2 31 : Int) = 2 ^ 31 := by norm_num
  rw [fitsSigned32, Bool.and_eq_true, decide_eq_true_iff, decide_eq_true_iff]
  omega

/-- Threads that are started keep code and table in step, if the call does not fail once they have
their numbers. -/
theorem inStep_runTapes (h : p.InStep) (hb : p.currentTape.isBuilding)
    (hsize : p.tapes.size ≤ 2 ^ 31) (hnext : p.threads.next + starts.length ≤ 2 ^ 31)
    (hargument : ∀ start ∈ starts, fitsSigned32 start.argument) :
    ((runTapes starts).run p).2.InStep := by
  rcases runTapes_cases p starts with ⟨e, hrun⟩ | ⟨roots, hstart, hrun⟩
  · rw [hrun]
    exact h
  rw [hrun]
  have hvalid := h.valid.acquireAll (starts.map (·.tape))
  have hnumbers := p.threads.perm_numbers_acquireAll (starts.map (·.tape))
  have hbound := p.threads.next_acquireAll_le (starts.map (·.tape))
  have hlength := p.threads.length_acquireAll (starts.map (·.tape))
  rw [length_map] at hbound hlength
  generalize p.threads.acquireAll (starts.map (·.tape)) = taken at hvalid hnumbers hbound hlength ⊢
  have hthreads : ∀ n ∈ taken.1, fitsSigned32 n = true := by
    intro n hn
    have hused := (hvalid.used n).1 (.inr (hnumbers.mem_iff.2 (mem_append_left _ hn)))
    exact fitsSigned32_natCast (by omega)
  have hstarts : ∀ start ∈ starts,
      fitsSigned32 start.tape = true ∧ fitsSigned32 start.argument = true := by
    intro start hmem
    have hlt : start.tape < p.tapes.size := hstart.lt _ (mem_map_of_mem hmem)
    exact ⟨fitsSigned32_natCast (hlt.trans_le hsize), hargument start hmem⟩
  rcases spawn_cases (p := { p with threads := taken.2 }) h.current_lt taken.1 starts roots with
    ⟨e, q, -, hb' | ⟨fault, hfault⟩⟩ | ⟨i, q, hrun, hmake, hadds, htable⟩
  · cases hb.symm.trans hb'
  · obtain ⟨i, hi⟩ := exists_make_startOperands hthreads hstarts p.currentTape.regs
    cases hi.symm.trans hfault
  · have hstarted : i.started = taken.1 ∧ i.joined = [] := by
      obtain ⟨-, -, -, -, -, rfl⟩ := Instruction.of_make_eq_ok hmake
      exact ⟨startedBy_startOperands hlength, rfl⟩
    rw [hrun]
    have hnew : Adds [i] p q := ⟨hadds.code, hadds.current, hadds.size, hadds.singular⟩
    refine h.adds hnew ?_ ?_
    · rw [htable]
      exact hvalid
    · rw [htable, flatMap_singleton, flatMap_singleton, hstarted.1, hstarted.2]
      exact hnumbers.symm

def joinThread (thread : Nat) : BuildM Unit := do
  pushInstruction .joinTape .base 1 [.number thread]
  if ¬ (← get).threads.isRunning thread then
    misuse (.unknownThread thread)
  modify fun p => { p with threads := p.threads.release thread }

theorem joinThread_cases (hready : Ready p) {thread : Nat} (hrunning : thread ∈ p.threads.numbers) :
    (∃ e, (joinThread thread).run p = (.error e, p)) ∨
      ∃ i q, (joinThread thread).run p = (.ok ⟨⟩, q) ∧ i.started = [] ∧ i.joined = [thread] ∧
        Ready q ∧ Adds [i] p q ∧ q.threads = p.threads.release thread := by
  unfold joinThread
  rcases hready.pushInstruction_cases .joinTape [.number thread] with
    ⟨e, hrun, -⟩ | ⟨i, q, hrun, hmake, hready', hadds, htable⟩
  · exact .inl ⟨e, run_bind_error hrun _⟩
  · have hi : i.started = [] ∧ i.joined = [thread] := by
      obtain ⟨-, -, -, -, -, rfl⟩ := Instruction.of_make_eq_ok hmake
      exact ⟨rfl, rfl⟩
    have hcheck : ¬ ¬ q.threads.isRunning thread = true := by
      rw [htable, not_not]
      exact ThreadTable.isRunning_iff.2 hrunning
    refine .inr ⟨i, { q with threads := q.threads.release thread }, ?_, hi.1, hi.2, ?_, ?_, ?_⟩
    · rw [run_bind_ok hrun, run_get_bind, if_neg hcheck]
      rfl
    · exact ⟨hready'.current_lt, hready'.building, hready'.active_lt, hready'.isOpen⟩
    · exact ⟨hadds.code, hadds.current, hadds.size, hadds.singular⟩
    · rw [← htable]

theorem inStep_joinThreads (h : p.InStep) (hready : Ready p) (hnodup : threads.Nodup)
    (hrunning : ∀ n ∈ threads, n ∈ p.threads.numbers) :
    ((threads.forM joinThread).run p).2.InStep := by
  induction threads generalizing p with
  | nil => exact h
  | cons thread rest ih =>
    obtain ⟨hthread, hrest⟩ := nodup_cons.1 hnodup
    have hmem := hrunning thread (.head _)
    show ((joinThread thread >>= fun _ => rest.forM joinThread).run p).2.InStep
    rcases joinThread_cases hready hmem with
      ⟨e, hrun⟩ | ⟨i, q, hrun, hstarted, hjoined, hready', hadds, htable⟩
    · rw [run_bind_error hrun]
      exact h
    · rw [run_bind_ok hrun]
      refine ih (h.adds hadds ?_ ?_) hready' hrest fun n hn => ?_
      · rw [htable]
        exact h.valid.release hmem
      · rw [htable, flatMap_singleton, flatMap_singleton, hstarted, hjoined]
        exact h.valid.perm_numbers_release hmem
      · rw [htable, ThreadTable.numbers_release]
        refine mem_filter.2 ⟨hrunning n (.tail _ hn), ?_⟩
        exact decide_eq_true fun heq => hthread (heq ▸ hn)

theorem joinTapes_cases (p : Program) (threads : List Nat) :
    (∃ e, (joinTapes threads).run p = (.error e, p)) ∨
      (∀ n ∈ threads, n ∈ p.threads.numbers) ∧ (joinTapes threads).run p = (do
        discard <| continueBlock "pre-join-tape"
        threads.forM joinThread
        discard <| continueBlock "post-join-tape" : BuildM Unit).run p := by
  cases hfind : threads.find? (!p.threads.isRunning ·) with
  | some thread =>
    refine .inl ⟨.usage (.unknownThread thread), ?_⟩
    rw [joinTapes, run_get_bind]
    simp only [hfind]
    rfl
  | none =>
    refine .inr ⟨fun n hn => ?_, ?_⟩
    · have hn := find?_eq_none.1 hfind n hn
      simpa [ThreadTable.isRunning_iff] using hn
    · rw [joinTapes, run_get_bind]
      simp only [hfind]
      rfl

theorem inStep_joinTapes (h : p.InStep) (hnodup : threads.Nodup) :
    ((joinTapes threads).run p).2.InStep := by
  have hblock {q : Program} (hq : q.InStep) (name : String) :
      ((discard (continueBlock name) : BuildM PUnit).run q).2.InStep := by
    rcases continueBlock_cases hq.current_lt name with ⟨e, hrun, -⟩ | ⟨q', hrun, -, hadds, htable, -⟩
    · rw [hrun]
      exact hq
    · rw [hrun]
      refine hq.adds hadds (by rw [htable]; exact hq.valid) ?_
      rw [htable]
      exact .refl _
  rcases joinTapes_cases p threads with ⟨e, hrun⟩ | ⟨hrunning, hrun⟩
  · rw [hrun]
    exact h
  rw [hrun]
  rcases continueBlock_cases h.current_lt "pre-join-tape" with
    ⟨e, hrun, -⟩ | ⟨q, hrun, hready, hadds, htable, -⟩
  · rw [run_bind_error hrun]
    exact h
  · have hq := hblock h "pre-join-tape"
    rw [hrun] at hq
    rw [run_bind_ok hrun]
    have hloop := inStep_joinThreads hq hready hnodup (by rw [htable]; exact hrunning)
    refine run_bind_cases InStep (fun e r hr => ?_) fun _ r hr => ?_
    · rwa [hr] at hloop
    · rw [hr] at hloop
      exact hblock hloop _

/-! ## One thread at a time -/

/-- A tape that runs in one thread at a time has one running thread at most, and a tape that is not
there has none. -/
structure Sparse (p : Program) : Prop where
  current_lt : p.current < p.tapes.size
  singular : ∀ id, (p.tapeAt id).singular = true → (p.threads.runningOn id).length ≤ 1
  unknown : ∀ id, p.tapes.size ≤ id → (p.threads.runningOn id).length = 0

theorem Sparse.mono (h : Sparse p) (hcurrent : q.current = p.current)
    (hsize : q.tapes.size = p.tapes.size)
    (hsingular : ∀ id, (q.tapeAt id).singular = (p.tapeAt id).singular)
    (hle : ∀ id, (q.threads.runningOn id).length ≤ (p.threads.runningOn id).length) : Sparse q := by
  refine ⟨by rw [hcurrent, hsize]; exact h.current_lt, fun id hid => ?_, fun id hid => ?_⟩
  · rw [hsingular] at hid
    exact (hle id).trans (h.singular id hid)
  · rw [hsize] at hid
    exact Nat.le_zero.1 ((hle id).trans_eq (h.unknown id hid))

/-- Joining threads keeps what a new state of the current tape and the release of a running thread
keep. -/
theorem maintains_joinTapes {I : Program → Prop}
    (htape : ∀ p t, I p → t.singular = p.currentTape.singular → I (p.modifyTape p.current fun _ => t))
    (hrelease : ∀ p thread, I p → p.threads.isRunning thread = true →
      I { p with threads := p.threads.release thread })
    (threads : List Nat) : Maintains I (joinTapes threads) := by
  have hblock (name : String) : Maintains I (discard (continueBlock name) : BuildM PUnit) := by
    refine (reads_building.maintains_bind fun p t hrun hp => ?_).discard
    obtain ⟨rfl, hb⟩ := of_run_building hrun
    rw [run_startBlock hb]
    exact htape p _ hp (by rfl)
  have hpush (operands : List Operand) : Maintains I (pushInstruction .joinTape .base 1 operands) := by
    intro p hp
    rcases BuildM.pushInstruction_cases p .joinTape .base 1 operands with ⟨e, hrun⟩ | ⟨i, -, -, hrun⟩
    · rw [hrun]
      exact hp
    · rw [hrun]
      exact htape p _ hp rfl
  refine .get_bind fun p => ?_
  simp only []
  split
  · exact .throw_bind
  · refine (hblock _).bind fun _ => Maintains.bind (Maintains.forM (fun thread => ?_) threads) fun _ =>
      hblock _
    refine (hpush _).bind fun _ q hq => ?_
    rw [run_get_bind]
    by_cases hrunning : q.threads.isRunning thread = true
    · rw [if_neg (not_not.2 hrunning)]
      exact hrelease q thread hq hrunning
    · rw [if_pos hrunning]
      exact hq

theorem maintains_sparse_joinTapes (threads : List Nat) : Maintains Sparse (joinTapes threads) := by
  refine maintains_joinTapes (fun p t hp ht => ?_) (fun p thread hp _ => ?_) threads
  · refine hp.mono rfl (size_modifyTape ..) (fun id => ?_) fun id => le_rfl
    rw [tapeAt_modifyTape]
    split
    · rename_i hid
      rw [hid.1]
      exact ht
    · rfl
  · exact hp.mono rfl rfl (fun _ => rfl) fun id => p.threads.length_runningOn_release_le thread id

theorem of_run_runTapes (hlt : p.current < p.tapes.size)
    (hrun : (runTapes starts).run p = (.ok threads, q)) :
    CanStart p (starts.map (·.tape)) ∧
      (threads, q.threads) = p.threads.acquireAll (starts.map (·.tape)) ∧ ∃ i, Adds [i] p q := by
  rcases runTapes_cases p starts with ⟨e, herror⟩ | ⟨roots, hstart, hspawn⟩
  · cases hrun.symm.trans herror
  rw [hspawn] at hrun
  rcases spawn_cases (p := { p with threads := (p.threads.acquireAll (starts.map (·.tape))).2 })
      hlt _ starts roots with ⟨e, q', herror, -⟩ | ⟨i, q', hok, -, hadds, htable⟩
  · cases hrun.symm.trans herror
  · cases hrun.symm.trans hok
    exact ⟨hstart, Prod.ext rfl htable, i, hadds.code, hadds.current, hadds.size, hadds.singular⟩

theorem sparse_of_run_runTapes (h : Sparse p)
    (hrun : (runTapes starts).run p = (.ok threads, q))
    (hidle : ∀ start ∈ starts, (p.tapeAt start.tape).singular = true →
      p.threads.runningOn start.tape = []) : Sparse q := by
  obtain ⟨hstart, htable, i, hadds⟩ := of_run_runTapes h.current_lt hrun
  have hlength (id : TapeId) : (q.threads.runningOn id).length =
      (p.threads.runningOn id).length + (starts.map (·.tape)).count id := by
    rw [← ThreadTable.length_runningOn_acquireAll, ← htable]
  refine ⟨hadds.current_lt h.current_lt, fun id hid => ?_, fun id hid => ?_⟩
  · rw [hadds.singular] at hid
    have honce := hstart.once id hid
    rw [hlength]
    by_cases hmem : id ∈ starts.map (·.tape)
    · obtain ⟨start, hs, rfl⟩ := mem_map.1 hmem
      rw [hidle start hs hid, length_nil, zero_add]
      exact honce
    · rw [count_eq_zero_of_not_mem hmem]
      exact h.singular id hid
  · rw [hadds.size] at hid
    have hmem : id ∉ starts.map (·.tape) := fun hmem =>
      lt_irrefl id (lt_of_lt_of_le (hstart.lt id hmem) hid)
    rw [hlength, count_eq_zero_of_not_mem hmem]
    exact h.unknown id hid

end BuildM

/-! ## Histories of calls -/

/-- A call that starts or joins threads. -/
inductive ThreadCall where
  | run (starts : List ThreadStart)
  | join (threads : List Nat)

namespace ThreadCall

open BuildM

/-- The program after the call, whether it fails or not. -/
def after : ThreadCall → Program → Program
  | .run starts, p => ((runTapes starts).run p).2
  | .join threads, p => ((joinTapes threads).run p).2

def Succeeds (p : Program) : ThreadCall → Prop
  | .run starts => ∃ threads, ((runTapes starts).run p).1 = .ok threads
  | .join threads => ((joinTapes threads).run p).1 = .ok ()

/-- The call cannot fail once it has changed the table: what is started fits its instruction and
goes to a tape that takes instructions, and no thread is to be joined twice. -/
def Regular (p : Program) : ThreadCall → Prop
  | .run starts => p.currentTape.isBuilding = true ∧ p.tapes.size ≤ 2 ^ 31 ∧
      p.threads.next + starts.length ≤ 2 ^ 31 ∧
      ∀ start ∈ starts, fitsSigned32 start.argument = true
  | .join threads => threads.Nodup

/-- The call starts no tape that runs in one thread at a time while a thread of it runs. -/
def Idle (p : Program) : ThreadCall → Prop
  | .run starts => ∀ start ∈ starts, (p.tapeAt start.tape).singular = true →
      p.threads.runningOn start.tape = []
  | .join _ => True

end ThreadCall

namespace Program

/-- What the program becomes without calls that start or join threads. -/
structure Apart (p q : Program) : Prop where
  current_lt : q.current < q.tapes.size
  threads : q.threads = p.threads
  started : q.started.Perm p.started
  joined : q.joined.Perm p.joined
  size_le : p.tapes.size ≤ q.tapes.size
  singular : ∀ id < p.tapes.size, (q.tapeAt id).singular = (p.tapeAt id).singular

/-- The program is made by calls that start and join threads, from one without threads, and by
whatever is done beside them. -/
inductive Threading (Allowed : Program → ThreadCall → Prop) : Program → Prop
  | start {p : Program} (hlt : p.current < p.tapes.size) (hthreads : p.threads = {})
      (hstarted : p.started = []) (hjoined : p.joined = []) : Threading Allowed p
  | call {p : Program} {c : ThreadCall} (h : Threading Allowed p) (hc : Allowed p c) :
      Threading Allowed (c.after p)
  | apart {p q : Program} (h : Threading Allowed p) (hq : Apart p q) : Threading Allowed q

theorem Threading.inStep (h : p.Threading ThreadCall.Regular) : p.InStep := by
  induction h with
  | start hlt hthreads hstarted hjoined =>
    refine ⟨hlt, ?_, ?_⟩
    · rw [hthreads]
      exact ThreadTable.valid_new
    · rw [hthreads, hstarted, hjoined]
      exact .refl _
  | @call p c h hc ih =>
    cases c with
    | run starts => exact BuildM.inStep_runTapes ih hc.1 hc.2.1 hc.2.2.1 hc.2.2.2
    | join threads => exact BuildM.inStep_joinTapes ih hc
  | apart h hq ih =>
    refine ⟨hq.current_lt, by rw [hq.threads]; exact ih.valid, ?_⟩
    rw [hq.threads]
    exact hq.started.trans (ih.perm.trans (hq.joined.symm.append_right _))

theorem Threading.sparse (h : p.Threading fun p c => c.Succeeds p ∧ c.Idle p) : BuildM.Sparse p := by
  induction h with
  | start hlt hthreads =>
    refine ⟨hlt, fun id _ => ?_, fun id _ => ?_⟩
    · rw [hthreads]
      exact Nat.zero_le _
    · rw [hthreads]
      rfl
  | @call p c h hc ih =>
    cases c with
    | run starts =>
      obtain ⟨⟨threads, hok⟩, hidle⟩ := hc
      exact BuildM.sparse_of_run_runTapes ih (run_eq_of_fst hok) hidle
    | join threads => exact BuildM.maintains_sparse_joinTapes threads _ ih
  | @apart p q h hq ih =>
    refine ⟨hq.current_lt, fun id hid => ?_, fun id hid => ?_⟩
    · rw [hq.threads]
      by_cases hlt : id < p.tapes.size
      · exact ih.singular id (hq.singular id hlt ▸ hid)
      · rw [ih.unknown id (not_lt.1 hlt)]
        exact Nat.zero_le _
    · rw [hq.threads]
      exact ih.unknown id (hq.size_le.trans hid)

/-- The program is made by calls that start and join threads, all of which succeed, from one without
threads, and by whatever is done beside them; `counts` says how many threads run after each call. -/
inductive Succession : Program → List Nat → Prop
  | start {p : Program} (hlt : p.current < p.tapes.size) (hthreads : p.threads = {}) : Succession p []
  | call {p : Program} {counts : List Nat} {c : ThreadCall} (h : Succession p counts)
      (hc : c.Succeeds p) :
      Succession (c.after p) ((c.after p).threads.running.length :: counts)
  | apart {p q : Program} {counts : List Nat} (h : Succession p counts)
      (hlt : q.current < q.tapes.size) (hthreads : q.threads = p.threads) : Succession q counts

/-- The numbers of threads are used well, `peak` of them so far. -/
structure Numbered (peak : Nat) (p : Program) : Prop where
  current_lt : p.current < p.tapes.size
  valid : p.threads.Valid
  next_eq : p.threads.next = peak + 1

theorem Numbered.call {peak : Nat} {c : ThreadCall} (h : Numbered peak p) (hc : c.Succeeds p) :
    Numbered (max (c.after p).threads.running.length peak) (c.after p) := by
  cases c with
  | run starts =>
    obtain ⟨threads, hok⟩ := hc
    obtain ⟨-, htable, i, hadds⟩ := BuildM.of_run_runTapes h.current_lt (run_eq_of_fst hok)
    have hthreads : ((ThreadCall.run starts).after p).threads =
        (p.threads.acquireAll (starts.map (·.tape))).2 := congrArg Prod.snd htable
    refine ⟨hadds.current_lt h.current_lt, ?_, ?_⟩
    · rw [hthreads]
      exact h.valid.acquireAll _
    · rw [hthreads, h.valid.next_acquireAll, h.next_eq]
      omega
  | join threads =>
    have hjoin : Numbered peak ((ThreadCall.join threads).after p) := by
      refine BuildM.maintains_joinTapes (fun p t hp _ => ?_)
        (fun p thread hp hrunning => ?_) threads p h
      · exact ⟨by rw [size_modifyTape]; exact hp.current_lt, hp.valid, hp.next_eq⟩
      · exact ⟨hp.current_lt, hp.valid.release (ThreadTable.isRunning_iff.1 hrunning), hp.next_eq⟩
    have hlength := hjoin.valid.length
    rw [hjoin.next_eq] at hlength
    rwa [max_eq_right (by omega)]

theorem Succession.numbered {counts : List Nat} (h : p.Succession counts) :
    Numbered (counts.foldr max 0) p := by
  induction h with
  | start hlt hthreads => exact ⟨hlt, hthreads ▸ ThreadTable.valid_new, by rw [hthreads]; rfl⟩
  | call _ hc ih => exact ih.call hc
  | apart _ hlt hthreads ih => exact ⟨hlt, hthreads ▸ ih.valid, hthreads ▸ ih.next_eq⟩

/-! ## Results -/

/-- After any calls, failed ones included, the code starts a running thread once more than it waits
for it, and any other thread as often as it waits for it; what can be joined is started. -/
theorem threads_follow_code (h : p.Threading ThreadCall.Regular) :
    (∀ n, p.started.count n = p.joined.count n + if p.threads.isRunning n then 1 else 0) ∧
      ∀ threads, (ThreadCall.join threads).Succeeds p →
        ∀ n ∈ threads, p.started.count n = p.joined.count n + 1 := by
  refine ⟨h.inStep.count_started, ?_⟩
  intro threads hok n hn
  rcases BuildM.joinTapes_cases p threads with ⟨e, herror⟩ | ⟨hrunning, -⟩
  · cases hok.symm.trans (congrArg Prod.fst herror)
  · rw [h.inStep.count_started, if_pos (ThreadTable.isRunning_iff.2 (hrunning n hn))]

def worker (single : Bool) : Program :=
  builtBy (BuildM.newTape "worker" { single } (BuildM.emit .crash []))

theorem threading_worker (single : Bool) {Allowed : Program → ThreadCall → Prop} :
    (worker single).Threading Allowed := by
  cases single <;> exact .start (by decide) rfl rfl rfl

/-- Two threads start, one is joined, and its number is used again. -/
theorem threads_follow_code_reused :
    let p := (ThreadCall.run [⟨1, 0⟩]).after ((ThreadCall.join [1]).after
      ((ThreadCall.run [⟨1, 7⟩, ⟨1, -1⟩]).after (worker false)))
    p.Threading ThreadCall.Regular ∧ p.started.count 1 = p.joined.count 1 + 1 ∧
      p.joined.count 1 = 1 := by
  have hrun : (worker false).Threading ThreadCall.Regular := threading_worker false
  have hjoin := hrun.call (c := .run [⟨1, 7⟩, ⟨1, -1⟩]) (by refine ⟨?_, ?_, ?_, ?_⟩ <;> decide +kernel)
  have hagain := hjoin.call (c := .join [1]) (nodup_singleton 1)
  have hend := hagain.call (c := .run [⟨1, 0⟩]) (by refine ⟨?_, ?_, ?_, ?_⟩ <;> decide +kernel)
  have hrunning : ((ThreadCall.run [⟨1, 0⟩]).after ((ThreadCall.join [1]).after
      ((ThreadCall.run [⟨1, 7⟩, ⟨1, -1⟩]).after (worker false)))).threads.isRunning 1 = true := by
    decide +kernel
  refine ⟨hend, ?_, by decide +kernel⟩
  rw [(threads_follow_code hend).1 1, if_pos hrunning]

/-- A call whose argument does not fit its instruction fails, and yet the thread can be joined; a
thread that is named twice is waited for twice. -/
theorem joins_unspawned :
    let p := (ThreadCall.run [⟨1, 4294967296⟩]).after (worker false)
    let q := (ThreadCall.join [1, 1]).after ((ThreadCall.run [⟨1, 0⟩]).after (worker false))
    (¬ (ThreadCall.run [⟨1, 4294967296⟩]).Succeeds (worker false) ∧ p.threads.isRunning 1 = true ∧
        p.started = [] ∧ (ThreadCall.join [1]).Succeeds p) ∧
      q.started.count 1 = 1 ∧ q.joined.count 1 = 2 := by
  refine ⟨⟨?_, ?_, ?_, ?_⟩, ?_⟩
  · rintro ⟨threads, hok⟩
    have herror : ((BuildM.runTapes [⟨1, 4294967296⟩]).run (worker false)).1.toBool = false := by
      decide +kernel
    rw [hok] at herror
    cases herror
  · decide +kernel
  · decide +kernel
  · rfl
  · decide +kernel

/-- A tape that runs in one thread at a time does, if calls start it only while no thread of it
runs. -/
theorem singular_runs_once (h : p.Threading fun p c => c.Succeeds p ∧ c.Idle p) {id : TapeId}
    (hsingular : (p.tapeAt id).singular = true) : (p.threads.runningOn id).length ≤ 1 :=
  h.sparse.singular id hsingular

/-- The tape runs, is joined, and runs again. -/
theorem singular_runs_once_again :
    let p := (ThreadCall.run [⟨1, 0⟩]).after ((ThreadCall.join [1]).after
      ((ThreadCall.run [⟨1, 0⟩]).after (worker true)))
    p.Threading (fun p c => c.Succeeds p ∧ c.Idle p) ∧ (p.tapeAt 1).singular = true ∧
      (p.threads.runningOn 1).length ≤ 1 := by
  have hrun : (worker true).Threading fun p c => c.Succeeds p ∧ c.Idle p := threading_worker true
  have hjoin := hrun.call (c := .run [⟨1, 0⟩]) ⟨⟨[1], rfl⟩, forall_mem_singleton.2 fun _ => rfl⟩
  have hagain := hjoin.call (c := .join [1]) ⟨rfl, trivial⟩
  have hend := hagain.call (c := .run [⟨1, 0⟩]) ⟨⟨[1], rfl⟩, forall_mem_singleton.2 fun _ => rfl⟩
  exact ⟨hend, rfl, singular_runs_once hend rfl⟩

/-- Two calls, both of which succeed, let it run beside itself. -/
theorem singular_runs_twice :
    let p := (ThreadCall.run [⟨1, 0⟩]).after (worker true)
    (worker true |>.tapeAt 1).singular = true ∧ (ThreadCall.run [⟨1, 0⟩]).Succeeds (worker true) ∧
      (ThreadCall.run [⟨1, 0⟩]).Succeeds p ∧
      (((ThreadCall.run [⟨1, 0⟩]).after p).threads.runningOn 1).length = 2 :=
  ⟨rfl, ⟨[1], rfl⟩, ⟨[2], rfl⟩, rfl⟩

/-- Threads that start together have different numbers, none of which is zero or runs; and the
numbers that are set aside for tapes are one more than the most threads that ever ran at a time. -/
theorem parallel_tapes_tight {counts : List Nat} (h : p.Succession counts) :
    (∀ starts threads q, (BuildM.runTapes starts).run p = (.ok threads, q) →
      threads.Nodup ∧ ∀ n ∈ threads, n ≠ 0 ∧ p.threads.isRunning n = false) ∧
    p.maxParallelTapes = counts.foldr max 0 + 1 := by
  have hp := h.numbered
  refine ⟨fun starts threads q hrun => ?_, hp.next_eq⟩
  obtain ⟨-, htable, -⟩ := BuildM.of_run_runTapes hp.current_lt hrun
  have hthreads : threads = (p.threads.acquireAll (starts.map (·.tape))).1 := congrArg Prod.fst htable
  have hvalid := hp.valid.acquireAll (starts.map (·.tape))
  have hperm := p.threads.perm_numbers_acquireAll (starts.map (·.tape))
  rw [← hthreads] at hperm
  obtain ⟨hnodup, -, hdisjoint⟩ := nodup_append.1 (hperm.nodup_iff.1 hvalid.nodup)
  refine ⟨hnodup, fun n hn => ⟨?_, ?_⟩⟩
  · exact (((hvalid.used n).1 (.inr (hperm.mem_iff.2 (mem_append_left _ hn)))).1).ne'
  · rw [Bool.eq_false_iff, Ne, ThreadTable.isRunning_iff]
    exact fun hmem => hdisjoint n hn n hmem rfl

/-- Two threads start, one is joined, and its number is used again: three is one more than two. -/
theorem parallel_tapes_tight_reused :
    let p := (ThreadCall.join [1]).after ((ThreadCall.run [⟨1, 0⟩, ⟨1, 1⟩]).after (worker false))
    p.Succession [1, 2] ∧ p.maxParallelTapes = 3 ∧
      ((BuildM.runTapes [⟨1, 2⟩]).run p).1 = .ok [1] ∧ p.threads.isRunning 1 = false := by
  intro p
  have hstart : (worker false).Succession [] := .start (by decide) rfl
  have hrun := hstart.call (c := .run [⟨1, 0⟩, ⟨1, 1⟩]) ⟨[1, 2], rfl⟩
  have hjoin : p.Succession _ := hrun.call (c := .join [1]) rfl
  have hagain : ((BuildM.runTapes [⟨1, 2⟩]).run p).1 = .ok [1] := rfl
  obtain ⟨hnumbers, hpeak⟩ := parallel_tapes_tight hjoin
  exact ⟨hjoin, hpeak, hagain, ((hnumbers _ _ _ (run_eq_of_fst hagain)).2 1 (.head _)).2⟩

end Program

end SecureTape
