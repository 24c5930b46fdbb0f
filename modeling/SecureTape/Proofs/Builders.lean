import SecureTape.Program.Control
import SecureTape.Program.Memory
import SecureTape.Program.Thread
import SecureTape.Proofs.Evolution

/-!
# Actions that build a program

Every action that emits code, cuts it into blocks, or asks for memory and threads lets a coherent
program evolve. Main statements:
1. `Lawful`: from every coherent program the action leads to one that the program evolves to.
2. `lawful_pushInstruction` and the like: the actions are lawful.
-/

namespace SecureTape

open Action RegisterFile Program List

variable {e : CompileError} {f : Tape → Tape} {op : Op}

namespace BuildM

variable {α β : Type} {p : Program}

/-- From every coherent program the action leads to one that the program evolves to. -/
def Lawful (act : BuildM α) : Prop :=
  ∀ p : Program, p.Coherent → Meets Evolves act p fun _ _ => True

namespace Lawful

theorem pure (a : α) : Lawful (Pure.pure a) := fun _ hp => .pure (.refl hp) trivial

theorem throw (e : CompileError) : Lawful (MonadExcept.throw e : BuildM α) :=
  fun _ hp => .throw (.refl hp)

theorem get : Lawful (MonadState.get : BuildM Program) :=
  fun _ hp => ⟨.refl hp, fun _ _ _ => trivial⟩

theorem liftM (x : Except CompileError α) : Lawful (MonadLiftT.monadLift x : BuildM α) :=
  fun _ hp => .liftM (.refl hp) fun _ _ => trivial

theorem ite (c : Prop) [Decidable c] {act act' : BuildM α} (h : Lawful act) (h' : Lawful act') :
    Lawful (if c then act else act') := by
  split
  · exact h
  · exact h'

theorem bind {act : BuildM α} {k : α → BuildM β} (h : Lawful act) (hk : ∀ a, Lawful (k a)) :
    Lawful (act >>= k) :=
  fun p hp => .bind (h p hp) fun a q hpq _ => hk a q hpq.coherent

theorem throw_bind {k : α → BuildM β} : Lawful (MonadExcept.throw e >>= k) :=
  fun _ hp => .throw_bind (.refl hp)

theorem guard {c : Prop} [Decidable c] {k : PUnit → BuildM β} (h : Lawful (k ⟨⟩)) :
    Lawful (if c then MonadExcept.throw e >>= k else k ⟨⟩) :=
  .ite c throw_bind h

theorem map {act : BuildM α} (f : α → β) (h : Lawful act) : Lawful (f <$> act) := by
  rw [map_eq_pure_bind]
  exact h.bind fun a => pure (f a)

theorem discard {act : BuildM α} (h : Lawful act) : Lawful (Functor.discard act) :=
  h.map _

theorem mapM {act : α → BuildM β} (h : ∀ a, Lawful (act a)) (xs : List α) :
    Lawful (xs.mapM act) := by
  induction xs with
  | nil => exact pure []
  | cons x xs ih =>
    rw [mapM_cons]
    exact (h x).bind fun _ => ih.bind fun _ => pure _

theorem forM {act : α → BuildM PUnit} (h : ∀ a, Lawful (act a)) (xs : List α) :
    Lawful (xs.forM act) := by
  induction xs with
  | nil => exact pure _
  | cons x xs ih => exact (h x).bind fun _ => ih

theorem attempt {act : BuildM α} (h : Lawful act) : Lawful (attempt act) := by
  intro p hp
  refine ⟨?_, fun _ _ _ => trivial⟩
  exact (h p hp).ends

end Lawful

/-! ## Reading the program -/

theorem meets_building (hp : p.Coherent) :
    Meets Evolves building p fun t q => q = p ∧ t = p.currentTape ∧ t.isBuilding = true := by
  refine .get_bind ?_
  simp only []
  split
  · exact .throw_bind (.refl hp)
  · rename_i hb
    exact .pure (.refl hp) ⟨rfl, rfl, Decidable.not_not.1 hb⟩

theorem lawful_building : Lawful building := fun _ hp => (meets_building hp).forget

theorem meets_tape (hp : p.Coherent) (id : TapeId) :
    Meets Evolves (tape id) p fun t q => q = p ∧ id < p.tapes.size ∧ t = p.tapeAt id := by
  refine .get_bind ?_
  split
  · rename_i t ht
    obtain ⟨hid, rfl⟩ := Array.getElem?_eq_some_iff.1 ht
    refine .pure (.refl hp) ⟨rfl, hid, ?_⟩
    simp [tapeAt, hid]
  · exact .throw (.refl hp)

theorem lawful_tape (id : TapeId) : Lawful (tape id) :=
  fun _ hp => (meets_tape hp id).forget

theorem lawful_activeNode : Lawful activeNode := lawful_building.map _

theorem lawful_activePool : Lawful activePool := lawful_building.map _

theorem meets_registerInfo (hp : p.Coherent) (r : Reg) :
    Meets Evolves (registerInfo r) p fun info q => q = p ∧ p.currentTape.regs.owns r = true ∧
      info = (p.currentTape.regs.classOf r, p.currentTape.regs.sizeOf r) := by
  refine .get_bind ?_
  simp only []
  split
  · exact .throw_bind (.refl hp)
  · rename_i hr
    exact .pure (.refl hp) ⟨rfl, Decidable.not_not.1 hr, rfl⟩

theorem lawful_registerInfo (r : Reg) : Lawful (registerInfo r) :=
  fun _ hp => (meets_registerInfo hp r).forget

theorem lawful_checkVectorSize (size : Nat) : Lawful (checkVectorSize size) := by
  unfold checkVectorSize
  exact .guard (Lawful.get.bind fun _ => .ite _ (.throw _) (.pure _))

/-! ## Changing the program -/

theorem lawful_modify {f : Program → Program} (h : ∀ p, f p = (f p).withCode p) :
    Lawful (modify f) :=
  fun p hp => .modify (hp.beside (h p)) trivial

theorem run_onTree (f : RequirementTree → α × RequirementTree) (p : Program) :
    (onTree f).run p = (.ok (f p.tree).1, { p with tree := (f p.tree).2 }) := rfl

theorem lawful_onTree (f : RequirementTree → α × RequirementTree) : Lawful (onTree f) :=
  fun p hp => .of_run (run_onTree f p) (hp.beside rfl) fun _ _ => trivial

theorem modifyTape_modifyTape (p : Program) (id : TapeId) (f g : Tape → Tape) :
    (p.modifyTape id f).modifyTape id g = p.modifyTape id fun t => g (f t) := by
  unfold modifyTape
  congr 1
  refine Array.ext_getElem? fun i => ?_
  simp only [Array.getElem?_modify]
  split
  · rw [Option.map_map]
    rfl
  · rfl

theorem currentTape_modifyTape (hlt : p.current < p.tapes.size) (f : Tape → Tape) :
    (p.modifyTape p.current f).currentTape = f p.currentTape := by
  show (p.modifyTape p.current f).tapeAt p.current = _
  rw [tapeAt_modifyTape_self hlt]
  rfl

variable {t : Tape} {id : TapeId}

theorem evolves_replace (hp : p.Coherent) (h : Tape.Edit p.options False p.currentTape t) :
    Evolves p (p.modifyTape p.current fun _ => t) :=
  hp.quietEdit fun _ => h

theorem meets_modifyCurrent (hp : p.Coherent)
    (h : Tape.Edit p.options False p.currentTape (f p.currentTape)) :
    Meets Evolves (modifyCurrent f) p fun _ q => q = p.modifyTape p.current f :=
  .modify (hp.quietEdit fun _ => h) rfl

theorem lawful_modifyCurrent (h : ∀ t, Tape.SameCode t (f t)) :
    Lawful (modifyCurrent f) :=
  fun _ hp => (meets_modifyCurrent hp (.note (h _))).forget

theorem evolves_registers (hp : p.Coherent) (hstate : (p.tapeAt id).TakesRegisters)
    {g : RegisterFile} (hg : Grows (p.tapeAt id).regs g) :
    Evolves p (p.modifyTape id ({ · with regs := g })) :=
  hp.quietEdit fun _ => .registers hstate ⟨hg.ext.keeps, hg.valid⟩

theorem meets_onRegisters {R : Program → Program → Prop} {act : RegisterM α}
    {Q : α → RegisterFile → Prop} (h : Meets Grows act (p.tapeAt id).regs Q)
    (hR : ∀ g, Grows (p.tapeAt id).regs g → R p (p.modifyTape id ({ · with regs := g }))) :
    Meets R (onRegisters id act) p fun a q => ∃ g, Grows (p.tapeAt id).regs g ∧ Q a g ∧
      q = p.modifyTape id ({ · with regs := g }) := by
  have hrun : (onRegisters id act).run p = ((act.run (p.tapeAt id).regs).1,
      p.modifyTape id ({ · with regs := (act.run (p.tapeAt id).regs).2 })) := rfl
  refine .of_run hrun (hR _ h.ends) ?_
  intro a ha
  exact ⟨_, h.ends, h.result a _ (Prod.ext ha rfl), rfl⟩

/-! ## Registers -/

theorem takesRegisters_of_isBuilding (h : t.isBuilding) : t.TakesRegisters :=
  .inl (of_decide_eq_true h)

theorem lawful_onCurrent {act : RegisterM α}
    (h : ∀ f : RegisterFile, f.Valid → Meets Grows act f fun _ _ => True) :
    Lawful (do
      let _ ← building
      onRegisters (← MonadState.get).current act) := by
  intro p hp
  refine .bind (meets_building hp) ?_
  rintro _ q - ⟨rfl, rfl, hb⟩
  have hact := h _ (hp.sound hp.current_lt).valid
  exact .get_bind (meets_onRegisters hact fun _ =>
    evolves_registers hp (takesRegisters_of_isBuilding hb)).forget

theorem lawful_createRegister (cls : RegisterClass) (size : Nat) :
    Lawful (createRegister cls size) :=
  Lawful.get.bind fun _ => lawful_onCurrent fun _ hf => (meets_create hf _ size).forget

theorem lawful_newVector (cls : RegisterClass) (size : Nat) : Lawful (newVector cls size) :=
  (lawful_checkVectorSize size).bind fun _ => lawful_createRegister cls size

theorem lawful_newInteger : Lawful newInteger :=
  lawful_onCurrent fun _ hf => (meets_create hf _ 1).forget

theorem lawful_view (r : Reg) (start size : Nat) : Lawful (view r start size) := by
  intro p hp
  refine .bind (meets_registerInfo hp r) ?_
  rintro _ q - ⟨rfl, hr, -⟩
  refine .bind (meets_building hp) ?_
  rintro _ q - ⟨rfl, rfl, hb⟩
  have hact := meets_viewOf (hp.sound hp.current_lt).valid hr start size
  exact .get_bind (meets_onRegisters hact fun _ =>
    evolves_registers hp (takesRegisters_of_isBuilding hb)).forget

theorem lawful_link (a b : Reg) : Lawful (link a b) := by
  intro p hp
  refine .get_bind ?_
  simp only []
  split
  · exact .throw_bind (.refl hp)
  refine .bind (meets_registerInfo hp a) ?_
  rintro _ q - ⟨rfl, ha, -⟩
  refine .bind (meets_registerInfo hp b) ?_
  rintro _ q - ⟨rfl, hb, -⟩
  refine .bind (meets_building hp) ?_
  rintro _ q - ⟨rfl, rfl, hbuilding⟩
  refine .liftM_bind (.refl hp) ?_
  intro regs hregs
  obtain ⟨hvalid, hkeeps⟩ := (hp.sound hp.current_lt).valid.of_link_eq_ok ha hb hregs
  exact (meets_modifyCurrent hp (.registers (takesRegisters_of_isBuilding hbuilding)
    ⟨hkeeps, hvalid⟩)).forget

/-! ## Instructions -/

theorem of_push_eq_ok {t' : Tape} (h : t.push op = .ok t') :
    t.isBuilding = true ∧ t.activeBlock.isOpen = true ∧
      t' = t.modifyBlock t.active fun b => { b with ops := b.ops ++ [op] } := by
  unfold Tape.push at h
  split at h
  · cases h
  · rename_i hb
    split at h
    · cases h
    · rename_i hopen
      cases h
      exact ⟨Decidable.not_not.1 hb, Decidable.not_not.1 hopen, rfl⟩

theorem meets_pushOp (hp : p.Coherent) (hop : op.Owned p.currentTape.regs)
    (hcall : ∀ c, op = .call c → p.macros.lookup c.key = some c.template) :
    Meets Evolves (pushOp op) p fun _ _ => True := by
  refine .bind (meets_building hp) ?_
  rintro _ q - ⟨rfl, rfl, hb⟩
  refine .liftM_bind (.refl hp) ?_
  intro t ht
  obtain ⟨-, hopen, rfl⟩ := of_push_eq_ok ht
  refine .modify (hp.edits (fun _ => .single (.push hb hopen hop fun _ => rfl)) ?_) trivial
  rintro c - ⟨i, hi⟩
  rw [Tape.block_modifyBlock] at hi
  split at hi
  · rcases mem_append.1 hi with hi | hi
    · exact hp.cached hp.current_lt ⟨_, hi⟩
    · exact hcall c (mem_singleton.1 hi).symm
  · exact hp.cached hp.current_lt ⟨i, hi⟩

theorem lawful_pushInstruction (opcode : Opcode) (domain : FieldDomain) (size : Nat)
    (operands : List Operand) : Lawful (pushInstruction opcode domain size operands) := by
  intro p hp
  refine .bind (meets_building hp) ?_
  rintro _ q - ⟨rfl, rfl, -⟩
  refine .liftM_bind (.refl hp) ?_
  intro i hi
  exact meets_pushOp hp (Instruction.typed_of_make hi).owned nofun

theorem lawful_emit (opcode : Opcode) (operands : List Operand) : Lawful (emit opcode operands) := by
  refine Lawful.get.bind fun p => ?_
  simp only []
  split
  · exact ((lawful_registerInfo _).map _).bind fun _ => lawful_pushInstruction _ _ _ _
  · exact (Lawful.pure _).bind fun _ => lawful_pushInstruction _ _ _ _

/-! ## Blocks -/

theorem run_building (hb : p.currentTape.isBuilding) : building.run p = (.ok p.currentTape, p) := by
  have hdo : building.run p = (if ¬p.currentTape.isBuilding then do
      reject (.tapeFinalized p.currentTape.name)
      return p.currentTape
    else return p.currentTape : BuildM Tape).run p := rfl
  rw [hdo, if_neg (by simp [hb])]
  rfl

theorem run_startBlock (hb : p.currentTape.isBuilding) (name : String) (scope : Option BlockId)
    (exit : Option Exit) (node : NodeId) :
    (startBlock name scope exit node).run p = (.ok p.currentTape.blocks.size,
      p.modifyTape p.current fun _ => (p.currentTape.startBlock name scope exit node).2) := by
  unfold startBlock
  rw [run_bind_ok (run_building hb), ← Tape.fst_startBlock p.currentTape name scope exit node]
  rfl

theorem lawful_continueBlock (name : String) : Lawful (continueBlock name) := by
  intro p hp
  refine .bind (meets_building hp) ?_
  rintro _ q - ⟨rfl, rfl, hb⟩
  exact .of_run (run_startBlock hb _ _ _ _) (hp.quietEdit fun _ => .startBlock hb (.inr rfl))
    fun _ _ => trivial

theorem run_modifyCurrent (p : Program) (f g : Tape → Tape) :
    (modifyCurrent g).run (p.modifyTape p.current f) =
      (.ok ⟨⟩, p.modifyTape p.current fun t => g (f t)) := by
  have h := modifyTape_modifyTape p p.current f g
  rw [← h]
  rfl

theorem run_startBlock_modifyTape (hlt : p.current < p.tapes.size)
    (hb : (f p.currentTape).isBuilding) (name : String) (scope : Option BlockId)
    (exit : Option Exit) (node : NodeId) :
    (startBlock name scope exit node).run (p.modifyTape p.current f) =
      (.ok (f p.currentTape).blocks.size,
        p.modifyTape p.current fun _ => ((f p.currentTape).startBlock name scope exit node).2) := by
  rw [run_startBlock (by rwa [currentTape_modifyTape hlt]), currentTape_modifyTape hlt]
  congr 1
  exact modifyTape_modifyTape p p.current f _

theorem startBlock_scopes (t : Tape) (scopes : List Scope) (name : String) (scope : Option BlockId)
    (exit : Option Exit) (node : NodeId) :
    (({ t with scopes } : Tape).startBlock name scope exit node).2 =
      { (t.startBlock name scope exit node).2 with scopes } := by
  cases scope <;> rfl

theorem meets_onTree (hp : p.Coherent) (f : RequirementTree → α × RequirementTree) :
    Meets Evolves (onTree f) p fun _ q => q.tapes = p.tapes ∧ q.currentTape = p.currentTape :=
  .of_run (run_onTree f p) (hp.beside rfl) fun _ _ => ⟨rfl, rfl⟩

/-! ## Settings -/

theorem lawful_between {f g : Program → Program} (hf : Lawful (modify f)) (hg : Lawful (modify g))
    {act : BuildM α} (h : Lawful act) : Lawful (do
      modify f
      let result ← attempt act
      modify g
      liftM result) :=
  hf.bind fun _ => h.attempt.bind fun result => hg.bind fun _ => .liftM result

theorem lawful_withVectorSize (size : Nat) {act : BuildM α} (h : Lawful act) :
    Lawful (withVectorSize size act) :=
  (lawful_checkVectorSize size).bind fun _ => Lawful.get.bind fun _ =>
    lawful_between (lawful_modify fun _ => rfl) (lawful_modify fun _ => rfl) h

theorem lawful_withDomain (domain : FieldDomain) {act : BuildM α} (h : Lawful act) :
    Lawful (withDomain domain act) :=
  Lawful.get.bind fun _ => lawful_between (lawful_modify fun _ => rfl) (lawful_modify fun _ => rfl) h

/-! ## Tapes and threads -/

theorem run_addTape (name : String) (kind : TapeKind) (singular : Bool) (p : Program) :
    ∃ full root tree, (addTape name kind singular).run p = (.ok p.tapes.size,
      { p with tree, tapes := p.tapes.push (Tape.new p.tapes.size full kind singular root) }) :=
  ⟨_, _, _, rfl⟩

theorem evolves_addTape (hp : p.Coherent) (full : String) (kind : TapeKind) (singular : Bool)
    (root : NodeId) (tree : RequirementTree) :
    Evolves p { p with
      tree, tapes := p.tapes.push (Tape.new p.tapes.size full kind singular root) } := by
  have htree : Evolves p { p with tree } := hp.beside rfl
  exact trans_of Evolves htree (htree.coherent.addTape .refl)

theorem meets_addTape (hp : p.Coherent) (name : String) (kind : TapeKind) (singular : Bool) :
    Meets Evolves (addTape name kind singular) p fun id q =>
      p.tapes.size ≤ id ∧ id < q.tapes.size := by
  obtain ⟨full, root, tree, hrun⟩ := run_addTape name kind singular p
  refine .of_run_ok hrun (evolves_addTape hp full kind singular root tree) ⟨Nat.le_refl _, ?_⟩
  simp

theorem evolves_withTape {q : Program} (hp : p.Coherent) (hpq : Evolves p q)
    (hid : p.tapes.size ≤ id) (hlt : id < q.tapes.size) {act : BuildM α} (h : Lawful act) :
    Evolves p ((withTape id act).run q).2 := by
  have hact := (h _ (hpq.coherent.turnTo hlt)).ends
  have hrun : ((withTape id act).run q).2 =
      { (act.run { q with current := id }).2 with current := q.current } := rfl
  rw [hrun, hpq.current]
  exact hpq.within hp hid hact

theorem lawful_fill {make : BuildM TapeId}
    (hmake : ∀ p : Program, p.Coherent →
      Meets Evolves make p fun id q => p.tapes.size ≤ id ∧ id < q.tapes.size)
    {body : BuildM α} (h : Lawful body) : Lawful (do
      let id ← make
      let a ← withTape id body
      return (id, a)) := by
  intro p hp
  have hends := (hmake p hp).ends
  refine ⟨?_, fun _ _ _ => trivial⟩
  rcases hrun : make.run p with ⟨_ | id, q⟩
  · rw [hrun] at hends
    rwa [run_bind_error hrun]
  · obtain ⟨hid, hlt⟩ := (hmake p hp).result id q hrun
    rw [hrun] at hends
    rw [run_bind_ok hrun, bind_pure_comp, run_map]
    exact evolves_withTape hp hends hid hlt h

theorem lawful_newFunction (name : String) {body : BuildM α} (h : Lawful body) :
    Lawful (newFunction name body) :=
  lawful_fill (fun _ hp => meets_addTape hp name .function true) h

theorem lawful_newTape (name : String) (options : ThreadOptions) {body : BuildM α} (h : Lawful body) :
    Lawful (newTape name options body) := by
  have hmake (p : Program) (hp : p.Coherent) : Meets Evolves (do
      let id ← addTape name .thread options.single
      modify fun p => p.modifyTape id ({ · with threads := options.threads })
      return id) p fun id q => p.tapes.size ≤ id ∧ id < q.tapes.size := by
    refine .bind (meets_addTape hp name .thread options.single) ?_
    rintro id q hq ⟨hid, hlt⟩
    have hnote : Evolves q (q.modifyTape id ({ · with threads := options.threads })) :=
      hq.coherent.quietEdit fun _ => .note (.of_eq rfl)
    refine .modify_bind hnote (.pure (.refl hnote.coherent) ⟨hid, ?_⟩)
    rw [size_modifyTape]
    exact hlt
  have hfill := lawful_fill hmake h
  simp only [bind_assoc, pure_bind] at hfill
  exact hfill

theorem evolves_export (hp : p.Coherent) (hstate : p.currentTape.TakesRegisters) (r : Reg)
    (h : Tape.SameCode { p.currentTape with regs := p.currentTape.regs.markExported r }
      (f p.currentTape)) : Evolves p (p.modifyTape p.current f) := by
  have hcovers := (SameShape.markExported p.currentTape.regs r).covers
    (hp.sound hp.current_lt).valid
  exact hp.quietEdits fun _ => .tail (.single (.registers hstate hcovers)) (.note h)

theorem lawful_tapeParameter (cls : RegisterClass) (size : Nat) :
    Lawful (tapeParameter cls size) := by
  refine (lawful_checkVectorSize size).bind fun _ => ?_
  intro p hp
  refine .bind (meets_building hp) ?_
  rintro _ q - ⟨rfl, rfl, hb⟩
  have hact := meets_create (hp.sound hp.current_lt).valid cls size
  refine .get_bind (.bind (meets_onRegisters hact fun _ =>
    evolves_registers hp (takesRegisters_of_isBuilding hb)) ?_)
  rintro r q' hq ⟨g, -, ⟨-, -, howns, -⟩, rfl⟩
  have hcurrent := currentTape_modifyTape (f := ({ · with regs := g })) hp.current_lt
  have hstate : (q.modifyTape q.current ({ · with regs := g })).currentTape.TakesRegisters := by
    rw [hcurrent]
    exact takesRegisters_of_isBuilding hb
  have hparam :
      ((q.modifyTape q.current ({ · with regs := g })).currentTape.regs.markExported r).owns r =
      true := by
    rw [(SameShape.markExported _ r).owns, hcurrent]
    exact howns
  have hexport := evolves_export hq.coherent hstate r (f := fun t =>
    { t with regs := t.regs.markExported r, params := t.params ++ [r] })
      ⟨rfl, rfl, rfl, rfl, rfl, rfl, rfl, rfl, fun r' hr' => ?_⟩
  · exact .modify_bind hexport (.pure (.refl hexport.coherent) trivial)
  · rcases mem_append.1 hr' with hr' | hr'
    · exact .inl hr'
    · obtain rfl := mem_singleton.1 hr'
      exact .inr hparam

theorem lawful_checkStarts (seen : List TapeId) (starts : List ThreadStart) :
    Lawful (checkStarts seen starts) := by
  induction starts generalizing seen with
  | nil => exact .pure _
  | cons start rest ih =>
    refine (lawful_tape _).bind fun t => ?_
    exact .guard (.guard ((ih _).bind fun _ => .pure _))

theorem lawful_acquireThread (id : TapeId) : Lawful (acquireThread id) := by
  intro p hp
  have hrun : (acquireThread id).run p =
      (.ok (p.threads.acquire id).1, { p with threads := (p.threads.acquire id).2 }) := rfl
  exact .of_run hrun (hp.beside rfl) fun _ _ => trivial

theorem lawful_addCallee (id : TapeId) (bits : BitLengths) : Lawful (addCallee id bits) :=
  lawful_modifyCurrent fun _ => .of_eq rfl

theorem lawful_runTapes (starts : List ThreadStart) : Lawful (runTapes starts) := by
  refine Lawful.get.bind fun p => .guard ?_
  refine (lawful_checkStarts [] starts).bind fun roots => ?_
  refine (Lawful.mapM (fun _ => lawful_acquireThread _) starts).bind fun threads => ?_
  refine (lawful_continueBlock _).discard.bind fun _ => ?_
  refine (lawful_pushInstruction _ _ _ _).bind fun _ => lawful_activeNode.bind fun node => ?_
  refine (lawful_onTree _).discard.bind fun _ => ?_
  refine (Lawful.forM (fun _ => Lawful.get.bind fun _ => lawful_addCallee _ _) starts).bind
    fun _ => ?_
  exact (lawful_continueBlock _).discard.bind fun _ => .pure _

theorem lawful_joinTapes (threads : List Nat) : Lawful (joinTapes threads) := by
  have hrelease (thread : Nat) : Lawful (modify fun p : Program =>
      { p with threads := p.threads.release thread } : BuildM PUnit) :=
    lawful_modify fun _ => rfl
  refine Lawful.get.bind fun p => ?_
  simp only []
  split
  · exact .throw_bind
  · refine (lawful_continueBlock _).discard.bind fun _ => ?_
    refine (Lawful.forM (fun thread => ?_) threads).bind fun _ => (lawful_continueBlock _).discard
    refine (lawful_pushInstruction _ _ _ _).bind fun _ => Lawful.get.bind fun q => ?_
    exact .guard (hrelease thread)

theorem lawful_callGroup (callee : TapeId) (a : CallArgument) : Lawful (callGroup callee a) := by
  refine Lawful.get.bind fun p => .guard ((lawful_registerInfo _).bind fun info => ?_)
  simp only []
  split
  · exact Lawful.get.bind fun _ => .throw _
  · exact .pure _

theorem lawful_callTape (id : TapeId) (args : List CallArgument) : Lawful (callTape id args) := by
  refine (lawful_tape id).bind fun callee => .guard ?_
  refine (Lawful.mapM (lawful_callGroup id) args).bind fun groups => ?_
  refine (lawful_pushInstruction _ _ _ _).bind fun _ => lawful_activeNode.bind fun node => ?_
  exact (lawful_onTree _).discard.bind fun _ => lawful_addCallee _ _

/-! ## Memory and requirements -/

theorem lawful_onHeap (act : HeapM α) : Lawful (onHeap act) := by
  refine Lawful.get.bind fun p => Lawful.bind ?_ fun _ => ?_
  · exact lawful_modify fun _ => rfl
  · split
    · exact .pure _
    · exact .throw _

theorem lawful_malloc (cls : RegisterClass) (size : Nat) : Lawful (malloc cls size) := by
  refine lawful_building.bind fun t => ?_
  split
  · exact lawful_onHeap _
  · split
    · exact lawful_onHeap _
    · exact .throw_bind

theorem lawful_free (cls : RegisterClass) (addr : Nat) : Lawful (free cls addr) :=
  lawful_activePool.bind fun _ => Lawful.get.bind fun _ => lawful_onHeap _

theorem lawful_flushMemory : Lawful flushMemory :=
  lawful_modify fun _ => rfl

theorem meets_newInteger (hp : p.Coherent) :
    Meets Evolves newInteger p fun _ q => q.currentTape.state = .building := by
  refine .bind (meets_building hp) ?_
  rintro _ q - ⟨rfl, rfl, hb⟩
  have hact := meets_create (hp.sound hp.current_lt).valid .int 1
  refine .get_bind ((meets_onRegisters hact fun _ =>
    evolves_registers hp (takesRegisters_of_isBuilding hb)).mono ?_)
  rintro r _ - ⟨g, -, -, rfl⟩
  rw [currentTape_modifyTape hp.current_lt]
  exact of_decide_eq_true hb

theorem meets_pushPrologue (hp : p.Coherent) (opcode : Opcode) (operands : List Operand) :
    Meets Evolves (pushPrologue opcode operands) p fun _ q =>
      q.currentTape.state = p.currentTape.state := by
  refine .get_bind (.liftM_bind (.refl hp) ?_)
  intro i hi
  refine (meets_modifyCurrent hp (.prologue (Instruction.typed_of_make hi).owned)).mono ?_
  rintro _ q - rfl
  rw [currentTape_modifyTape hp.current_lt]

theorem lawful_threadAddress (base stride : Nat) : Lawful (threadAddress base stride) := by
  refine lawful_building.bind fun t => ?_
  split
  · exact .pure _
  · refine lawful_newInteger.bind fun argument => lawful_newInteger.bind fun step => ?_
    refine lawful_newInteger.bind fun offset => lawful_newInteger.bind fun start => ?_
    intro p hp
    refine .bind (meets_newInteger hp) fun addr p hp hstate => ?_
    refine .bind (meets_pushPrologue hp.coherent _ _) fun _ p hp hp1 => ?_
    refine .bind (meets_pushPrologue hp.coherent _ _) fun _ p hp hp2 => ?_
    refine .bind (meets_pushPrologue hp.coherent _ _) fun _ p hp hp3 => ?_
    refine .bind (meets_pushPrologue hp.coherent _ _) fun _ p hp hp4 => ?_
    refine .bind (meets_pushPrologue hp.coherent _ _) fun _ p hp hp5 => ?_
    rw [hstate] at hp1
    rw [hp1] at hp2
    rw [hp2] at hp3
    rw [hp3] at hp4
    rw [hp4] at hp5
    have hexport := evolves_export hp.coherent (.inl hp5) addr (f := fun t => { t with
      regs := t.regs.markExported addr
      threadAddresses := ((base, stride), addr) :: t.threadAddresses }) (.of_eq rfl)
    exact .modify_bind hexport (.pure (.refl hexport.coherent) trivial)

theorem lawful_incrementRequirement (r : Resource) (n : Count) :
    Lawful (incrementRequirement r n) :=
  lawful_activeNode.bind fun _ => lawful_onTree _

theorem lawful_requireBitLength (bits : Nat) (domain : FieldDomain) :
    Lawful (requireBitLength bits domain) := by
  have hnote (lengths : BitLengths) : Lawful (modifyCurrent ({ · with bitLengths := lengths })) :=
    lawful_modifyCurrent fun _ => .of_eq rfl
  refine Lawful.get.bind fun p => lawful_building.bind fun t => ?_
  simp only []
  split
  · split
    · exact .guard (hnote _)
    · exact hnote _
  · exact .guard (hnote _)

theorem lawful_requirements (id : TapeId) : Lawful (requirements id) :=
  (lawful_tape id).bind fun _ => lawful_onTree _

end BuildM

end SecureTape
