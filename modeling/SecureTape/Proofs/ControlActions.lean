import SecureTape.Proofs.QuietActions

/-!
# What control actions do

An action that opens or closes a scope, or calls a tape, fails and leaves the program as it is, or
it replaces the current tape and the requirement tree. Main statements:
1. `BuildM.Advance`: what such an action makes of the current tape and of the requirement tree.
2. `BuildM.openLoop_cases`, `BuildM.endLoop_cases`, `BuildM.beginIf_cases` and so on: it does so.
-/

namespace SecureTape

open Action List

variable {Q : Tape → RequirementTree → Prop}

namespace Program

/-- The program with another current tape and requirement tree. -/
def replace (p : Program) (t : Tape) (tree : RequirementTree) : Program :=
  { p.modifyTape p.current fun _ => t with tree }

end Program

open Program

namespace BuildM

/-- The actions on blocks, and what they are given. -/
inductive Control where
  | next (name : String)
  | openLoop (times : Count) (counter : Option (Reg × Nat))
  | endLoop (cond : Reg)
  | beginIf (cond : Reg)
  | beginElse
  | endIf
  | beginFunction
  | endFunction
  | callTape (id : TapeId)
  | runTapes (ids : List TapeId)

/-- What an action on blocks makes of the current tape and of the requirement tree. -/
inductive Advance (p : Program) : Control → Tape → RequirementTree → Prop
  | next (name : String) : Advance p (.next name) (p.currentTape.startBlock name
      (some p.currentTape.active) none p.currentTape.activeBlock.node).2 p.tree
  | openLoop (times : Count) (counter : Option (Reg × Nat)) : Advance p (.openLoop times counter)
      { (p.currentTape.startBlock "begin-loop" (some p.currentTape.active) none
          (p.tree.addScope p.currentTape.activeBlock.node "loop" (.times times)).1).2 with
        scopes := .loop p.currentTape.blocks.size p.currentTape.active p.currentTape.activeBlock.node
          counter :: p.currentTape.scopes }
      (p.tree.addScope p.currentTape.activeBlock.node "loop" (.times times)).2
  | endLoop {cond : Reg} {start entry : BlockId} {outer : NodeId} {counter : Option (Reg × Nat)}
      {rest : List Scope} (hscopes : p.currentTape.scopes = .loop start entry outer counter :: rest) :
      Advance p (.endLoop cond) { (p.currentTape.startBlock "end-loop" (some entry)
          (some ⟨.ifNonZero cond, some start⟩) outer).2 with scopes := rest } p.tree
  | beginIf (cond : Reg) : Advance p (.beginIf cond)
      { (p.currentTape.startBlock "if-block" (some p.currentTape.active)
          (some ⟨.ifZero cond, none⟩) (p.tree.addNode "if").1).2 with
        scopes := .branch p.currentTape.active
          ((p.tree.addNode "if").2.addGroup p.currentTape.activeBlock.node .max
            [(p.tree.addNode "if").1]).1 p.currentTape.activeBlock.node none ::
              p.currentTape.scopes }
      ((p.tree.addNode "if").2.addGroup p.currentTape.activeBlock.node .max
        [(p.tree.addNode "if").1]).2
  | beginElse {cond : BlockId} {group : Nat} {outer : NodeId} {rest : List Scope}
      (hscopes : p.currentTape.scopes = .branch cond group outer none :: rest) : Advance p .beginElse
      { (p.currentTape.startBlock "else-block" (some cond) (some ⟨.always, none⟩)
          (p.tree.addNode "else").1).2.modifyBlock cond
            (·.setTarget p.currentTape.blocks.size) with
        scopes := .branch cond group outer (some p.currentTape.active) :: rest }
      ((p.tree.addNode "else").2.extendGroup outer group (p.tree.addNode "else").1)
  | endIf {cond : BlockId} {group : Nat} {outer : NodeId} {thenEnd : Option BlockId}
      {rest : List Scope} (hscopes : p.currentTape.scopes = .branch cond group outer thenEnd :: rest) :
      Advance p .endIf { (p.currentTape.startBlock "end-if" (some cond) none outer).2.modifyBlock
          (thenEnd.getD cond) (·.setTarget p.currentTape.blocks.size) with scopes := rest } p.tree
  | beginFunction : Advance p .beginFunction
      { (p.currentTape.startBlock "function" none none p.currentTape.activeBlock.node).2 with
        scopes := .function p.currentTape.active p.currentTape.activeBlock.node ::
          p.currentTape.scopes } p.tree
  | endFunction {entry : BlockId} {outer : NodeId} {rest : List Scope}
      (hscopes : p.currentTape.scopes = .function entry outer :: rest) : Advance p .endFunction
      { (p.currentTape.startBlock "end-function" (some entry) none outer).2 with scopes := rest } p.tree
  | callTape {id : TapeId} {i : Instruction} (bits : BitLengths)
      (hid : id < p.tapes.size) (hkind : (p.tapeAt id).kind = .function)
      (hop : i.opcode = .callTape) (hcallee : i.callee? = some id)
      (hparams : ∀ r, .callee r ∈ i.operands → r ∈ (p.tapeAt id).params) : Advance p (.callTape id)
      { p.currentTape.append (.inst i) with
        bitLengths := bits, callees := p.currentTape.callees ++ [id] }
      (p.tree.addGroup p.currentTape.activeBlock.node .sum [(p.tapeAt id).root]).2
  | runTapes {ids : List TapeId} {bits : BitLengths}
      (hids : ∀ id ∈ ids, id < p.tapes.size ∧ (p.tapeAt id).kind = .thread) : Advance p (.runTapes ids)
      { p.currentTape with bitLengths := bits, callees := p.currentTape.callees ++ ids }
      (p.tree.addGroup p.currentTape.activeBlock.node .max
        (ids.map fun id => (p.tapeAt id).root)).2

variable {p : Program}

/-! ## Replacing the current tape -/

/-- The action fails and leaves the program as it is, or it succeeds where the current tape is being
built, and replaces that tape and the requirement tree. -/
def Replaces {α : Type} (act : BuildM α) (p : Program) (Q : Tape → RequirementTree → Prop) : Prop :=
  (∃ e, act.run p = (.error e, p)) ∨
    p.currentTape.isBuilding = true ∧ ∃ a t tree, act.run p = (.ok a, p.replace t tree) ∧ Q t tree

theorem Replaces.of_reads {α β : Type} {act : BuildM α} {k : α → BuildM β} (h : Reads act)
    (hk : ∀ a, act.run p = (.ok a, p) → Replaces (k a) p Q) : Replaces (act >>= k) p Q := by
  rcases hrun : act.run p with ⟨e | a, q⟩
  · refine .inl ⟨e, ?_⟩
    rw [run_bind_error hrun, h.run_eq hrun]
  · have hq := h.run_eq hrun
    subst hq
    have hnext := hk a hrun
    rw [Replaces, run_bind_ok hrun]
    exact hnext

theorem Replaces.throw {α : Type} (e : CompileError) :
    Replaces (throw e : BuildM α) p Q := .inl ⟨e, rfl⟩

theorem lawful_of_replaces {α : Type} {act : BuildM α} {c : Control}
    (h : ∀ p : Program, p.current < p.tapes.size → Replaces act p (Advance p c))
    (hedit : ∀ {p q : Program} {a : α} {t : Tape} {tree : RequirementTree}, act.run p = (.ok a, q) →
      p.currentTape.isBuilding = true → Advance p c t tree →
      Tape.Edit p.options False p.currentTape t) : Lawful act := by
  intro p hp
  rcases h p hp.current_lt with ⟨e, hrun⟩ | ⟨hb, a, t, tree, hrun, ht⟩
  · exact .of_run hrun (.refl hp) fun _ _ => trivial
  · have hreplace := evolves_replace hp (hedit hrun hb ht)
    have htree : Evolves (p.modifyTape p.current fun _ => t) (p.replace t tree) :=
      hreplace.coherent.beside rfl
    exact .of_run hrun (trans_of Evolves hreplace htree) fun _ _ => trivial

/-! ## Scopes -/

theorem decides_of_run_checkCondition {opcode : Opcode} {cond : Reg} {q : Program} {a : Unit}
    (h : (checkCondition opcode cond).run p = (.ok a, q)) : p.currentTape.regs.Decides cond := by
  obtain ⟨⟨cls, size⟩, p₁, hinfo, h⟩ := of_run_bind_ok h
  rw [registerInfo, run_get_bind] at hinfo
  simp only [] at hinfo h
  split at hinfo
  · cases hinfo
  · rename_i hr
    cases hinfo
    split at h
    · cases h
    · split at h
      · cases h
      · exact ⟨Decidable.not_not.1 hr, by simp_all, by simp_all⟩

theorem openLoop_cases (p : Program) (times : Count) (counter : Option (Reg × Nat)) :
    Replaces (openLoop times counter) p (Advance p (.openLoop times counter)) := by
  refine .of_reads reads_activeNode fun node hnode => ?_
  obtain ⟨rfl, hb⟩ := of_run_activeNode hnode
  refine .inr ⟨hb, ⟨⟩, _, _, ?_, .openLoop times counter⟩
  generalize hscope : p.tree.addScope p.currentTape.activeBlock.node "loop" (.times times) = scope
  have hb' : ({ p with tree := scope.2 } : Program).currentTape.isBuilding = true := hb
  refine (run_bind_ok (run_onTree _ p) _).trans ?_
  rw [hscope]
  exact (run_bind_ok (run_building hb') _).trans
    ((run_bind_ok (run_startBlock hb' _ _ _ _) _).trans (run_modifyCurrent _ _ _))

theorem lawful_openLoop (times : Count) (counter : Option (Reg × Nat)) :
    Lawful (openLoop times counter) := by
  refine lawful_of_replaces (fun p _ => openLoop_cases p times counter) fun _ hb h => ?_
  cases h
  exact .openLoop hb

theorem endLoop_cases (p : Program) (hlt : p.current < p.tapes.size) (cond : Reg) :
    Replaces (endLoop cond) p (Advance p (.endLoop cond)) := by
  refine .of_reads (reads_checkCondition _ cond) fun _ _ => .of_reads reads_building fun t ht => ?_
  obtain ⟨rfl, hb⟩ := of_run_building ht
  split
  · rename_i start entry outer counter rest hscopes
    refine .inr ⟨hb, ⟨⟩, _, _, ?_, .endLoop hscopes⟩
    have hstart := run_startBlock_modifyTape hlt
      (f := fun t => { t with scopes := t.scopes.tail }) hb "end-loop" (some entry)
      (some ⟨.ifNonZero cond, some start⟩) outer
    refine ((run_bind_ok rfl _).trans (run_discard_ok hstart)).trans ?_
    rw [startBlock_scopes, hscopes]
    rfl
  · exact .throw _

theorem lawful_endLoop (cond : Reg) : Lawful (endLoop cond) := by
  refine lawful_of_replaces (fun p hlt => endLoop_cases p hlt cond) fun hrun hb h => ?_
  obtain ⟨_, _, hcond, -⟩ := of_run_bind_ok hrun
  cases h with
  | endLoop hscopes => exact .endLoop hb hscopes (decides_of_run_checkCondition hcond)

theorem beginIf_cases (p : Program) (cond : Reg) :
    Replaces (beginIf cond) p (Advance p (.beginIf cond)) := by
  refine .of_reads (reads_checkCondition _ cond) fun _ _ =>
    .of_reads reads_activeNode fun node hnode => ?_
  obtain ⟨rfl, hb⟩ := of_run_activeNode hnode
  refine .inr ⟨hb, ⟨⟩, _, _, ?_, .beginIf cond⟩
  generalize hnode : p.tree.addNode "if" = node
  generalize hgroup : node.2.addGroup p.currentTape.activeBlock.node .max [node.1] = group
  have hb' : ({ p with tree := group.2 } : Program).currentTape.isBuilding = true := hb
  refine (run_bind_ok (run_onTree _ p) _).trans ?_
  rw [hnode]
  refine (run_bind_ok (run_onTree _ { p with tree := node.2 }) _).trans ?_
  rw [hgroup]
  exact (run_bind_ok (run_building hb') _).trans ((run_bind_ok
    (run_discard_ok (run_startBlock hb' _ _ _ _)) _).trans (run_modifyCurrent _ _ _))

theorem lawful_beginIf (cond : Reg) : Lawful (beginIf cond) := by
  refine lawful_of_replaces (fun p _ => beginIf_cases p cond) fun hrun hb h => ?_
  obtain ⟨_, _, hcond, -⟩ := of_run_bind_ok hrun
  cases h
  exact .beginIf hb (decides_of_run_checkCondition hcond)

theorem beginElse_cases (p : Program) : Replaces beginElse p (Advance p .beginElse) := by
  refine .of_reads reads_building fun t ht => ?_
  obtain ⟨rfl, hb⟩ := of_run_building ht
  split
  · rename_i cond group outer rest hscopes
    refine .inr ⟨hb, ⟨⟩, _, _, ?_, .beginElse hscopes⟩
    generalize hnode : p.tree.addNode "else" = node
    generalize htree : node.2.extendGroup outer group node.1 = tree
    refine (run_bind_ok (run_onTree _ p) _).trans ?_
    rw [hnode]
    refine (run_bind_ok (run_onTree _ { p with tree := node.2 }) _).trans ?_
    rw [htree]
    have hreplace (t : Tape) : ({ p with tree } : Program).modifyTape p.current (fun _ => t) =
        p.replace t tree := rfl
    have hcurrent : ({ p with tree } : Program).current = p.current := rfl
    have htape : ({ p with tree } : Program).currentTape = p.currentTape := rfl
    generalize ({ p with tree } : Program) = q at hreplace hcurrent htape ⊢
    rw [← htape] at hb hscopes ⊢
    rw [← hreplace, ← hcurrent, run_bind_ok (run_startBlock hb _ _ _ _),
      run_bind_ok (run_modifyCurrent _ _ _), popScope, run_bind_ok (run_modifyCurrent _ _ _),
      pushScope, run_modifyCurrent]
    simp only [Tape.modifyBlock, Tape.scopes_startBlock, hscopes, tail_cons]
  · exact .throw _

theorem lawful_beginElse : Lawful beginElse := by
  refine lawful_of_replaces (fun p _ => beginElse_cases p) fun _ hb h => ?_
  cases h with
  | beginElse hscopes => exact .beginElse hb hscopes

theorem endIf_cases (p : Program) (hlt : p.current < p.tapes.size) :
    Replaces endIf p (Advance p .endIf) := by
  refine .of_reads reads_building fun t ht => ?_
  obtain ⟨rfl, hb⟩ := of_run_building ht
  split
  · rename_i cond group outer thenEnd rest hscopes
    refine .inr ⟨hb, ⟨⟩, _, _, ?_, .endIf hscopes⟩
    have hstart := run_startBlock_modifyTape hlt
      (f := fun t => { t with scopes := t.scopes.tail }) hb "end-if" (some cond) none outer
    refine ((run_bind_ok rfl _).trans ((run_bind_ok hstart _).trans
      (run_modifyCurrent _ _ _))).trans ?_
    rw [startBlock_scopes, hscopes]
    rfl
  · exact .throw _

theorem lawful_endIf : Lawful endIf := by
  refine lawful_of_replaces endIf_cases fun _ hb h => ?_
  cases h with
  | endIf hscopes => exact .endIf hb hscopes

theorem beginFunction_cases (p : Program) : Replaces beginFunction p (Advance p .beginFunction) := by
  refine .of_reads reads_building fun t ht => ?_
  obtain ⟨rfl, hb⟩ := of_run_building ht
  refine .inr ⟨hb, ⟨⟩, _, _, ?_, .beginFunction⟩
  exact (run_bind_ok (run_discard_ok (run_startBlock hb _ _ _ _)) _).trans
    (run_modifyCurrent _ _ _)

theorem lawful_beginFunction : Lawful beginFunction := by
  refine lawful_of_replaces (fun p _ => beginFunction_cases p) fun _ hb h => ?_
  cases h
  exact .beginFunction hb

theorem endFunction_cases (p : Program) (hlt : p.current < p.tapes.size) :
    Replaces endFunction p (Advance p .endFunction) := by
  refine .of_reads reads_building fun t ht => ?_
  obtain ⟨rfl, hb⟩ := of_run_building ht
  split
  · rename_i entry outer rest hscopes
    refine .inr ⟨hb, ⟨⟩, _, _, ?_, .endFunction hscopes⟩
    have hstart := run_startBlock_modifyTape hlt
      (f := fun t => { t with scopes := t.scopes.tail }) hb "end-function" (some entry) none outer
    refine ((run_bind_ok rfl _).trans (run_discard_ok hstart)).trans ?_
    rw [startBlock_scopes, hscopes]
    rfl
  · exact .throw _

theorem lawful_endFunction : Lawful endFunction := by
  refine lawful_of_replaces endFunction_cases fun _ hb h => ?_
  cases h with
  | endFunction hscopes => exact .endFunction hb hscopes

/-! ## Calls -/

theorem callee?_callOperands {i : Instruction} {callee : TapeId}
    {inputs outputs : List (List Operand)} (hop : i.opcode = .callTape)
    (hoperands : i.operands = callOperands callee inputs outputs) : i.callee? = some callee := by
  rw [Instruction.callee?, if_pos hop, hoperands]
  rfl

theorem mem_params_of_mem_callGroups {id : TapeId} {args : List CallArgument}
    {groups : List (List Operand)} {q : Program}
    (h : (args.mapM (callGroup id)).run p = (.ok groups, q)) :
    ∀ g ∈ groups, ∀ r, .callee r ∈ g → r ∈ (p.tapeAt id).params := by
  induction args generalizing groups with
  | nil =>
    cases h
    exact fun _ => nofun
  | cons a args ih =>
    rw [mapM_cons] at h
    obtain ⟨group, p₁, hgroup, hargs⟩ := of_run_bind_ok h
    rw [(reads_callGroup id a).run_eq hgroup] at hargs
    obtain ⟨rest, p₂, hrest, hanswer⟩ := of_run_bind_ok hargs
    cases hanswer
    intro g hg
    rcases mem_cons.1 hg with rfl | hg
    · unfold callGroup at hgroup
      rw [run_get_bind] at hgroup
      simp only [] at hgroup
      split at hgroup
      · cases hgroup
      · rename_i hparam
        obtain ⟨info, p₂, -, hflaw⟩ := of_run_bind_ok hgroup
        split at hflaw
        · cases hflaw
        · cases hflaw
          intro r hr
          have hr : r = a.param := by simpa using hr
          exact hr ▸ Decidable.not_not.1 hparam
    · exact ih hrest g hg

theorem callTape_cases (p : Program) (hlt : p.current < p.tapes.size) (id : TapeId)
    (args : List CallArgument) : Replaces (callTape id args) p (Advance p (.callTape id)) := by
  refine .of_reads (reads_tape id) fun callee hcallee => ?_
  obtain ⟨hid, rfl⟩ := of_run_tape hcallee
  simp only []
  split
  · exact .inl ⟨_, rfl⟩
  · rename_i hkind
    refine .of_reads (Reads.mapM (reads_callGroup id) args) fun groups hgroups => ?_
    have hparams (pick : CallArgument × List Operand → Bool) :
        ∀ g ∈ ((args.zip groups).filter pick).map (·.2), ∀ r, .callee r ∈ g →
          r ∈ (p.tapeAt id).params := by
      intro g hg
      obtain ⟨a, ha, rfl⟩ := mem_map.1 hg
      exact mem_params_of_mem_callGroups hgroups _ (of_mem_zip (mem_filter.1 ha).1).2
    generalize hoperands : callOperands id _ _ = operands
    rcases pushInstruction_cases p .callTape .base 1 operands with ⟨e, hrun⟩ | ⟨i, hi, hb, hrun⟩
    · exact .inl ⟨e, run_bind_error hrun _⟩
    · obtain ⟨-, -, -, -, -, hmake⟩ := Instruction.of_make_eq_ok hi
      have hop : i.opcode = .callTape := by rw [hmake]
      have hcallee : i.callee? = some id :=
        callee?_callOperands hop (by rw [hmake, ← hoperands])
      have hmem : ∀ r, .callee r ∈ i.operands → r ∈ (p.tapeAt id).params := by
        intro r hr
        rw [hmake, ← hoperands] at hr
        simp only [callOperands, mem_append, mem_flatten] at hr
        rcases hr with (hr | ⟨g, hg, hr⟩) | ⟨g, hg, hr⟩
        · simp at hr
        · exact hparams _ g hg r hr
        · exact hparams _ g hg r hr
      refine .inr ⟨hb, ⟨⟩, _, _, ?_, .callTape (p.currentTape.bitLengths.merge (p.tapeAt id).bitLengths)
        hid (Decidable.not_not.1 hkind) hop hcallee hmem⟩
      rw [run_bind_ok hrun]
      have htape := currentTape_modifyTape hlt fun _ => p.currentTape.append (.inst i)
      have hnode := run_activeNode (p := p.modifyTape p.current fun _ =>
        p.currentTape.append (.inst i)) (by rw [htape]; exact hb)
      rw [htape, Tape.node_push] at hnode
      rw [run_bind_ok hnode]
      refine (run_bind_ok (run_discard_ok (run_onTree _ _)) _).trans ?_
      exact run_modifyCurrent { p with
          tree := (p.tree.addGroup p.currentTape.activeBlock.node .sum [(p.tapeAt id).root]).2 }
        (fun _ => p.currentTape.append (.inst i)) fun t =>
          { t with
            bitLengths := t.bitLengths.merge (p.tapeAt id).bitLengths, callees := t.callees ++ [id] }

end BuildM

end SecureTape
