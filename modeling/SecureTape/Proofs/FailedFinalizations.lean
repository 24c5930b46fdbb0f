import SecureTape.Proofs.FailedAllocations

/-!
# Finalizations that fail

A tape that could not be finalized does not become a finished program: what stopped it stops the
whole program too. Main statements:
1. `BuildM.of_run_scheduleTape_error`: a tape cannot be scheduled because of an open scope, or
   because a macro call could not be expanded.
2. `BuildM.of_run_closeMain_error`: the main tape cannot be closed because of an open scope, or
   because there is no register left to declare the memory with.
3. `Program.Blocked`: what stops a program for good, and `Program.Blocked.run_finish`: it does.
The exception is a macro call that could not be expanded: its block is left empty. A finalization
that succeeds may still change what the program becomes (`Program.early_finalization_changes_code`).
-/

open SecureTape.Action

namespace SecureTape

open List

open Program RequirementTree

/-! ## Actions one after the other -/

variable {p q r : Program} {fuel n : Nat} {options : MergeOptions} {id k : TapeId} {s : TapeState}
  {met stack : List TapeId} {e : CompileError} {t : Tape}

namespace Action

variable {σ α : Type} {act : α → Action σ PUnit} {s s' : σ}

theorem exists_of_run_forM_error {xs : List α} (h : (xs.forM act).run s = (.error e, s')) :
    ∃ before x after t, xs = before ++ x :: after ∧ (before.forM act).run s = (.ok ⟨⟩, t) ∧
      (act x).run t = (.error e, s') := by
  induction xs generalizing s with
  | nil => cases h
  | cons x xs ih =>
    change (act x >>= fun _ => xs.forM act).run s = _ at h
    rcases hx : (act x).run s with ⟨e' | _, t⟩
    · rw [run_bind_error hx] at h
      cases h
      exact ⟨[], x, xs, s, rfl, rfl, hx⟩
    · rw [run_bind_ok hx] at h
      obtain ⟨before, y, after, u, rfl, hbefore, hy⟩ := ih h
      exact ⟨x :: before, y, after, u, rfl, (run_bind_ok hx _).trans hbefore, hy⟩

theorem exists_run_forM_error {I : σ → Prop} {x : α} {xs : List α} (hx : x ∈ xs)
    (hkeep : ∀ y ∈ xs, y ≠ x → Maintains I (act y))
    (hfail : ∀ s, I s → ∃ e t, (act x).run s = (.error e, t)) (hs : I s) :
    ∃ e t, (xs.forM act).run s = (.error e, t) := by
  induction xs generalizing s with
  | nil => cases hx
  | cons y xs ih =>
    change ∃ e t, (act y >>= fun _ => xs.forM act).run s = (.error e, t)
    by_cases hy : y = x
    · subst hy
      obtain ⟨e, t, hrun⟩ := hfail s hs
      exact ⟨e, t, run_bind_error hrun _⟩
    · have hnext := hkeep y (.head _) hy s hs
      rcases hrun : (act y).run s with ⟨e | _, t⟩
      · exact ⟨e, t, run_bind_error hrun _⟩
      · rw [run_bind_ok hrun]
        rw [hrun] at hnext
        exact ih ((mem_cons.1 hx).resolve_left (Ne.symm hy))
          (fun z hz => hkeep z (.tail _ hz)) hnext

theorem exists_run_bind_error {β γ : Type} {I : σ → Prop} {act : Action σ β} {k : β → Action σ γ}
    (hkeep : Maintains I act) (hk : ∀ b t, I t → ∃ e u, (k b).run t = (.error e, u)) (hs : I s) :
    ∃ e u, (act >>= k).run s = (.error e, u) := by
  have hnext := hkeep s hs
  rcases hrun : act.run s with ⟨e | b, t⟩
  · exact ⟨e, t, run_bind_error hrun _⟩
  · rw [run_bind_ok hrun]
    rw [hrun] at hnext
    exact hk b t hnext

end Action

/-! ## Jumps and loads that can be made -/

namespace BuildM

variable {regs : RegisterFile}

theorem exists_exitJump {kind : ExitKind}
    (h : ∀ cond, kind.condition? = some cond → regs.Decides cond) :
    ∃ i, exitJump regs kind = .ok i := by
  have hmake (opcode : Opcode) (hlayout : opcode.layout = .fixed [.reg .int .read, .int])
      {cond : Reg} (hcond : regs.Decides cond) :
      ∃ i, Instruction.make opcode .base 1 [.reg cond, .number 0] regs = .ok i := by
    have hformats : opcode.layout.formats? 2 = some [.reg .int .read, .int] := by
      rw [hlayout]
      rfl
    refine ⟨_, Instruction.make_eq_ok (fun h => by cases h) (by decide) hformats ?_⟩
    rw [ite_self]
    exact Instruction.checkOperands_cons.2
      ⟨Instruction.checkOperand_reg hcond.owns hcond.cls hcond.size,
      Instruction.checkOperands_cons.2 ⟨rfl, rfl⟩⟩
  cases kind with
  | always => exact ⟨_, rfl⟩
  | ifNonZero cond => exact hmake .jmpnz rfl (h cond rfl)
  | ifZero cond => exact hmake .jmpeqz rfl (h cond rfl)

theorem exists_make_load {cls : RegisterClass} {r : Reg} (howns : regs.owns r)
    (hcls : regs.classOf r = cls) (hsize : regs.sizeOf r = 1) (n : Int) :
    ∃ i, Instruction.make (byClass cls .ldmint .ldms .ldmc) (cls.domain?.getD .base) 1
      [.reg r, .number n] regs = .ok i := by
  have hlong {opcode : Opcode} (position : Nat) :
      Instruction.checkOperand opcode 1 regs position .long (.number n) = .ok () := rfl
  cases cls
  all_goals
    refine ⟨_, Instruction.make_eq_ok (by decide) (by decide) rfl ?_⟩
    exact Instruction.checkOperands_cons.2 ⟨Instruction.checkOperand_reg howns hcls hsize,
      Instruction.checkOperands_cons.2 ⟨hlong _, rfl⟩⟩

/-! ## Where scheduling stops -/

/-- The program with the operations of a block taken out. -/
def takeOut (p : Program) (id : TapeId) (k : BlockId) : Program :=
  p.modifyTape id fun t => t.modifyBlock k ({ · with ops := [] })

def expandBlock (options : MergeOptions) (id : TapeId) (k : BlockId) (p : Program) : BuildM (List Op) :=
  let t := p.tapeAt id
  let b := t.block k
  expandCalls id b.node (optimize t.regs options (b.liveOut t.regs) b.ops).1

def ExpansionFails (options : MergeOptions) (id : TapeId) (k : BlockId) (p q : Program) : Prop :=
  ∃ e, (expandBlock options id k p).run (takeOut p id k) = (.error e, q)

theorem range_eq_append {x : Nat} {before after : List Nat}
    (h : List.range n = before ++ x :: after) : before = List.range x ∧ x < n := by
  have hlength : before.length < n := by
    rw [← length_range (n := n), h, length_append, length_cons]
    omega
  have hx : x = before.length := by
    have hget : (List.range n)[before.length]? = some x := by rw [h]; simp
    rw [getElem?_range hlength] at hget
    exact (Option.some.inj hget).symm
  subst hx
  refine ⟨?_, hlength⟩
  have htake : (List.range n).take before.length = before := by rw [h]; simp
  rw [take_range, Nat.min_eq_left hlength.le] at htake
  exact htake.symm

theorem of_run_optimizeBlock_error {b : Block}
    (h : (optimizeBlock id options regs b).run p = (.error e, q)) :
    (expandCalls id b.node (optimize regs options (b.liveOut regs) b.ops).1).run p =
      (.error e, q) := by
  unfold optimizeBlock at h
  simp only [] at h
  split at h
  · cases h
  · rcases hexpand : (expandCalls id b.node (optimize regs options (b.liveOut regs) b.ops).1).run p
      with ⟨e' | expanded, q'⟩
    · rw [run_bind_error hexpand] at h
      cases h
      rfl
    · rw [run_bind_ok hexpand] at h
      cases h

theorem run_appendJump {exit : Option Exit}
    (hexit : ∀ cond, exit.bind (·.kind.condition?) = some cond → (p.tapeAt id).regs.Decides cond)
    (ops : List Op) : ∃ ops', (appendJump id exit ops).run p = (.ok ops', p) := by
  cases exit with
  | none => exact ⟨ops, rfl⟩
  | some exit =>
    obtain ⟨jump, hjump⟩ := exists_exitJump hexit
    refine ⟨ops ++ [.inst jump], (run_get_bind ..).trans ?_⟩
    rw [hjump]
    rfl

/-- A block cannot be scheduled only if a macro call of it cannot be expanded. -/
theorem of_run_scheduleBlock_error {k : BlockId} (hp : p.Coherent) (hid : id < p.tapes.size)
    (hstate : (p.tapeAt id).state = .scheduled) (hk : k < (p.tapeAt id).blocks.size)
    (h : (scheduleBlock id options k).run p = (.error e, q)) : ExpansionFails options id k p q := by
  have hb := (hp.sound hid).block k
  have hclear := advances_clear hp hid hstate k
  have hdo : (scheduleBlock id options k).run p = (do
      let result ← optimizeBlock id options (p.tapeAt id).regs ((p.tapeAt id).block k)
      storeBlock id k ((p.tapeAt id).block k) result : BuildM Unit).run (takeOut p id k) := by
    rw [scheduleBlock_eq]
    rfl
  rw [hdo] at h
  obtain ⟨hregs, -⟩ := tapeAt_clear (q := takeOut p id k) hid hk rfl
  have hopt : Meets (Advances id fun _ => False) _ (takeOut p id k) _ :=
    meets_optimizeCleared options hp hid hstate hk rfl
  rcases hrun : (optimizeBlock id options (p.tapeAt id).regs ((p.tapeAt id).block k)).run
      (takeOut p id k) with ⟨e' | result, r⟩
  · rw [run_bind_error hrun] at h
    cases h
    exact ⟨e, of_run_optimizeBlock_error hrun⟩
  · -- the jump of a block can always be made
    have hr := hopt.ends
    rw [hrun] at hr
    have hexit : ∀ cond, ((p.tapeAt id).block k).exit.bind (·.kind.condition?) = some cond →
        (r.tapeAt id).regs.Decides cond :=
      fun cond hcond => (hregs ▸ hb.exit cond hcond).keeps hr.regs.ext.keeps
    obtain ⟨ops, hjump⟩ := run_appendJump hexit result.1
    rw [run_bind_ok hrun, storeBlock, run_bind_ok hjump] at h
    cases h

theorem run_checkScopes_ok (h : (p.tapeAt id).scopes = []) :
    (checkScopes id).run p = (.ok ⟨⟩, p) := by
  rw [checkScopes, run_get_bind]
  simp only [h]
  rfl

theorem run_checkScopes_error (h : (p.tapeAt id).scopes ≠ []) :
    ∃ e, (checkScopes id).run p = (.error e, p) := by
  obtain ⟨scope, rest, hscopes⟩ := exists_cons_of_ne_nil h
  refine ⟨.construction (.unclosedScope (p.tapeAt id).name scope.kind), ?_⟩
  rw [checkScopes, run_get_bind]
  simp only [hscopes]
  rfl

/-- A macro call of a tape with closed scopes cannot be expanded: blocks in front of it are
scheduled, then one stops. -/
def TapeExpansionFails (id : TapeId) (p q : Program) : Prop :=
  (p.tapeAt id).isBuilding = true ∧ (p.tapeAt id).scopes = [] ∧
    ∃ k r, k < ((p.modifyTape id closeTape).tapeAt id).blocks.size ∧
      ((List.range k).forM (scheduleBlock id (mergeOptions p.options))).run
        (p.modifyTape id closeTape) = (.ok ⟨⟩, r) ∧ ExpansionFails (mergeOptions p.options) id k r q

/-- A tape cannot be scheduled because of an open scope, or because of a macro call. -/
theorem of_run_scheduleTape_error (hp : p.Coherent) (h : (scheduleTape id).run p = (.error e, q)) :
    (q = p ∧ (p.tapeAt id).isBuilding ∧ (p.tapeAt id).scopes ≠ []) ∨
      TapeExpansionFails id p q := by
  by_cases hb : (p.tapeAt id).isBuilding = true
  · rw [run_scheduleTape hb] at h
    rcases hscopes : (checkScopes id).run p with ⟨e' | _, r⟩
    · rw [run_bind_error hscopes] at h
      cases h
      refine .inl ⟨(reads_checkScopes id).run_eq hscopes, hb, fun hnil => ?_⟩
      cases (run_checkScopes_ok hnil).symm.trans hscopes
    · have hnil := ((meets_checkScopes hp id).result _ _ hscopes).2
      cases (reads_checkScopes id).run_eq hscopes
      rw [run_bind_ok hscopes, run_bind_ok (run_modify _ p), scheduleBlocks,
        run_get_bind] at h
      have hclose := evolves_close hp hb hnil
      by_cases hid : id < p.tapes.size
      · have hstate := state_close hid
        obtain ⟨before, k, after, r, hrange, hrun, hk⟩ := exists_of_run_forM_error h
        obtain ⟨rfl, hlt⟩ := range_eq_append hrange
        have hr := (meets_scheduleBlocks (mergeOptions (p.modifyTape id closeTape).options)
          (List.range k) hclose.coherent (hclose.lt hid) hstate
          fun i hi => lt_trans (mem_range.1 hi) hlt).ends
        rw [hrun] at hr
        refine .inr ⟨hb, hnil, k, r, hlt, hrun, of_run_scheduleBlock_error hr.coherent
          (hr.lt (hclose.lt hid)) (hr.state.trans hstate) ?_ hk⟩
        rw [hr.size]
        exact hlt
      · rw [blocks_close hid] at h
        cases h
  · have hdo : (scheduleTape id).run p = (.ok ⟨⟩, p) := by
      unfold scheduleTape
      rw [run_get_bind, if_neg hb]
      rfl
    cases hdo.symm.trans h

/-! ## Where closing the main tape stops -/

/-- The active block of the tape takes instructions. -/
structure Loads (t : Tape) : Prop where
  building : t.isBuilding = true
  active_lt : t.active < t.blocks.size
  isOpen : t.activeBlock.isOpen = true

theorem loads_startBlock (h : t.isBuilding) (name : String) (scope : Option BlockId)
    (exit : Option Exit) (node : NodeId) : Loads (t.startBlock name scope exit node).2 := by
  refine ⟨?_, ?_, ?_⟩
  · rw [Tape.isBuilding, Tape.state_startBlock]
    exact h
  · rw [Tape.active_startBlock, Tape.size_startBlock]
    exact Nat.lt_succ_self _
  · obtain ⟨name', pool, hblock⟩ := Tape.block_startBlock t name scope exit node
    rw [Tape.activeBlock, Tape.active_startBlock, hblock, if_pos rfl]
    simp only []
    split <;> rfl

theorem Loads.append (h : Loads t) (op : Op) : Loads (t.append op) := by
  refine ⟨h.building, ?_, ?_⟩
  · rw [Tape.append, Tape.size_modifyBlock]
    exact h.active_lt
  · show ((t.append op).block t.active).isOpen = true
    rw [Tape.append, Tape.block_modifyBlock, if_pos ⟨rfl, h.active_lt⟩]
    exact h.isOpen

theorem Loads.push (h : Loads t) (op : Op) : t.push op = .ok (t.append op) := by
  simp [Tape.push, h.building, h.isOpen, Tape.append]

theorem run_create_cases (f : RegisterFile) (cls : RegisterClass) :
    (∃ e, (RegisterM.create cls 1).run f = (.error e, f) ∧
        RegisterFile.maxVirtual ≤ f.counters.get cls) ∨
      ∃ r g, (RegisterM.create cls 1).run f = (.ok r, g) ∧
        f.counters.get cls < RegisterFile.maxVirtual ∧ g.owns r ∧ g.classOf r = cls ∧
        g.sizeOf r = 1 ∧ ∀ c, f.counters.get c ≤ g.counters.get c := by
  have hdo : (RegisterM.create cls 1).run f = (do
      let created ← liftM (n := RegisterM) (f.create cls 1)
      set created.2
      return created.1 : RegisterM Reg).run f := rfl
  rw [hdo]
  cases hcreate : f.create cls 1 with
  | error e =>
    refine .inl ⟨e, rfl, ?_⟩
    unfold RegisterFile.create at hcreate
    simp only [] at hcreate
    split at hcreate
    · omega
    · cases hcreate
  | ok result =>
    obtain ⟨r, g⟩ := result
    refine .inr ⟨r, g, rfl, ?_⟩
    obtain ⟨hext, hsize, rfl, -, index, hdata⟩ := RegisterFile.of_create_eq_ok hcreate
    have howns : g.owns (f.handle f.size) = true :=
      RegisterFile.owns_iff.2 ⟨hext.tape.symm, by simp [hsize, RegisterFile.handle]⟩
    have hcls : g.classOf (f.handle f.size) = cls := congrArg RegisterData.cls hdata
    have hone : g.sizeOf (f.handle f.size) = 1 := congrArg RegisterData.size hdata
    unfold RegisterFile.create at hcreate
    simp only [] at hcreate
    split at hcreate
    · cases hcreate
    · cases hcreate
      refine ⟨by omega, howns, hcls, hone, fun c => ?_⟩
      show _ ≤ (f.counters.set cls _).get c
      rw [PerClass.get_set]
      split
      · rename_i hc
        rw [hc]
        exact Nat.le_succ _
      · exact le_rfl

theorem touchLastCell_cases (hlt : mainTape < p.tapes.size) (h : Loads (p.tapeAt mainTape))
    (cls : RegisterClass) (top : Nat) :
    (∃ e, (touchLastCell cls top).run p = (.error e, p) ∧
        RegisterFile.maxVirtual ≤ (p.tapeAt mainTape).regs.counters.get cls) ∨
      ∃ t, (touchLastCell cls top).run p = (.ok ⟨⟩, p.modifyTape mainTape fun _ => t) ∧
        (p.tapeAt mainTape).regs.counters.get cls < RegisterFile.maxVirtual ∧ Loads t ∧
        ∀ c, (p.tapeAt mainTape).regs.counters.get c ≤ t.regs.counters.get c := by
  have hrun : (onRegisters mainTape (RegisterM.create cls 1)).run p =
      (((RegisterM.create cls 1).run (p.tapeAt mainTape).regs).1, p.modifyTape mainTape ({ · with
        regs := ((RegisterM.create cls 1).run (p.tapeAt mainTape).regs).2 })) := rfl
  rcases run_create_cases (p.tapeAt mainTape).regs cls with
    ⟨e, hcreate, hfull⟩ | ⟨r, g, hcreate, hleft, howns, hcls, hone, hcounters⟩
  · refine .inl ⟨e, ?_, hfull⟩
    rw [hcreate, modifyTape_eq_const] at hrun
    have hsame : p.modifyTape mainTape (fun _ => p.tapeAt mainTape) = p := by
      rw [← modifyTape_eq_const p mainTape fun t => t, modifyTape_id]
    rw [touchLastCell, run_bind_error hrun]
    exact congrArg _ hsame
  · rw [hcreate] at hrun
    have hshape := RegisterFile.SameShape.keep g r
    have howns' : (g.keep r).owns r = true := by
      rw [hshape.owns]
      exact howns
    obtain ⟨i, hi⟩ := exists_make_load howns' ((hshape.cls _).trans hcls) ((hshape.width _).trans hone)
      (wrap64 (top - 1))
    have hloads : Loads { p.tapeAt mainTape with regs := g.keep r } :=
      ⟨h.building, h.active_lt, h.isOpen⟩
    refine .inr ⟨_, ?_, hleft, hloads.append (.inst i), fun c => ?_⟩
    · have htape : (p.modifyTape mainTape fun t => { t with regs := g.keep r }).tapeAt mainTape =
          { p.tapeAt mainTape with regs := g.keep r } := by
        rw [tapeAt_modifyTape_self hlt]
      rw [touchLastCell, run_bind_ok hrun, run_bind_ok (run_modify _ _), modifyTape_modifyTape,
        run_get_bind, htape]
      simp only []
      rw [hi, run_bind_ok (run_liftM (Except.ok i) _), hloads.push,
        run_bind_ok (run_liftM (Except.ok _) _), run_modify, modifyTape_modifyTape]
    · show _ ≤ (g.keep r).counters.get c
      rw [hshape.counters]
      exact hcounters c

/-- The main tape has no register left to load the last cell of a heap in use. -/
def Crowded (p : Program) : Prop :=
  mainTape < p.tapes.size ∧ (p.tapeAt mainTape).isBuilding = true ∧
    ∃ cls, p.heap.top.get cls ≠ 0 ∧
      RegisterFile.maxVirtual ≤ (p.tapeAt mainTape).regs.counters.get cls

theorem crowded_of_run_forM {used : List RegisterClass} (hlt : mainTape < p.tapes.size)
    (h : Loads (p.tapeAt mainTape)) (top : RegisterClass → Nat)
    (hused : ∀ cls ∈ used, p.heap.top.get cls ≠ 0)
    (hrun : (used.forM fun cls => touchLastCell cls (top cls)).run p = (.error e, q)) : Crowded q := by
  induction used generalizing p with
  | nil => cases hrun
  | cons cls used ih =>
    change (touchLastCell cls (top cls) >>= fun _ =>
      used.forM fun cls => touchLastCell cls (top cls)).run p = _ at hrun
    rcases touchLastCell_cases hlt h cls (top cls) with ⟨e', hcell, hfull⟩ | ⟨t, hcell, -, ht, -⟩
    · rw [run_bind_error hcell] at hrun
      cases hrun
      exact ⟨hlt, h.building, cls, hused cls (.head _), hfull⟩
    · rw [run_bind_ok hcell] at hrun
      refine ih (p := p.modifyTape mainTape fun _ => t) (by rw [size_modifyTape]; exact hlt) ?_
        (fun c hc => hused c (.tail _ hc)) hrun
      rw [tapeAt_modifyTape_self hlt]
      exact ht

def usedHeaps (p : Program) : List RegisterClass :=
  RegisterClass.all.filter fun cls => p.heap.top.get cls ≠ 0

theorem run_closeMain_of_not (hb : ¬ (p.tapeAt mainTape).isBuilding)
    (hscopes : (p.tapeAt mainTape).scopes = []) : closeMain.run p = (.ok ⟨⟩, p) := by
  rw [closeMain, run_bind_ok (run_checkScopes_ok hscopes), run_get_bind, if_neg hb]
  rfl

theorem run_closeMain (hb : (p.tapeAt mainTape).isBuilding)
    (hscopes : (p.tapeAt mainTape).scopes = []) : closeMain.run p =
      if (usedHeaps p).isEmpty then (.ok ⟨⟩, p)
      else ((usedHeaps p).forM fun cls => touchLastCell cls (p.heap.top.get cls)).run
        (p.modifyTape mainTape fun t => (t.startBlock "memory-usage" none none t.root).2) := by
  rw [closeMain, run_bind_ok (run_checkScopes_ok hscopes), run_get_bind, if_pos hb, declareMemory,
    run_get_bind]
  simp only []
  rw [← usedHeaps]
  split
  · rfl
  · rw [run_bind_ok (run_modify _ p)]

theorem of_run_closeMain_error (hlt : mainTape < p.tapes.size) (h : closeMain.run p = (.error e, q)) :
    (q = p ∧ (p.tapeAt mainTape).scopes ≠ []) ∨ Crowded q := by
  by_cases hscopes : (p.tapeAt mainTape).scopes = []
  · by_cases hb : (p.tapeAt mainTape).isBuilding = true
    · rw [run_closeMain hb hscopes] at h
      split at h
      · cases h
      · refine .inr (crowded_of_run_forM ?_ ?_ _ (fun cls hcls => ?_) h)
        · rw [size_modifyTape]
          exact hlt
        · rw [tapeAt_modifyTape_self hlt]
          exact loads_startBlock hb ..
        · exact of_decide_eq_true (mem_filter.1 hcls).2
    · rw [run_closeMain_of_not hb hscopes] at h
      cases h
  · obtain ⟨e', herror⟩ := run_checkScopes_error hscopes
    rw [closeMain, run_bind_error herror] at h
    cases h
    exact .inl ⟨rfl, hscopes⟩

/-- Registers that are missing are still missing at the next attempt. -/
theorem Crowded.run_closeMain (h : Crowded p) : ∃ e q, closeMain.run p = (.error e, q) := by
  obtain ⟨hlt, hb, cls, htop, hfull⟩ := h
  by_cases hscopes : (p.tapeAt mainTape).scopes = []
  · have hused : cls ∈ usedHeaps p :=
      mem_filter.2 ⟨RegisterClass.mem_all cls, decide_eq_true htop⟩
    rw [BuildM.run_closeMain hb hscopes, if_neg fun hempty => by
      rw [isEmpty_iff.1 hempty] at hused
      cases hused]
    -- the class stays full while cells of other classes are loaded
    let I (q : Program) : Prop := mainTape < q.tapes.size ∧ Loads (q.tapeAt mainTape) ∧
      RegisterFile.maxVirtual ≤ (q.tapeAt mainTape).regs.counters.get cls
    refine exists_run_forM_error (I := I) hused (fun c _ _ q hq => ?_) (fun q hq => ?_) ⟨?_, ?_⟩
    · rcases touchLastCell_cases hq.1 hq.2.1 c (p.heap.top.get c) with
        ⟨e, hrun, -⟩ | ⟨t, hrun, -, ht, hcounters⟩
      · rw [hrun]
        exact hq
      · rw [hrun]
        refine ⟨by rw [size_modifyTape]; exact hq.1, ?_⟩
        rw [tapeAt_modifyTape_self hq.1]
        exact ⟨ht, hq.2.2.trans (hcounters cls)⟩
    · rcases touchLastCell_cases hq.1 hq.2.1 cls (p.heap.top.get cls) with
        ⟨e, hrun, -⟩ | ⟨t, -, hleft, -⟩
      · exact ⟨e, q, hrun⟩
      · exact absurd hq.2.2 (Nat.not_le.2 hleft)
    · rw [size_modifyTape]
      exact hlt
    · rw [tapeAt_modifyTape_self hlt, Tape.regs_startBlock]
      exact ⟨loads_startBlock hb .., hfull⟩
  · obtain ⟨e, herror⟩ := run_checkScopes_error hscopes
    exact ⟨e, p, run_bind_error herror _⟩

end BuildM

/-! ## Stages of a tape -/

/-- Everything is allowed, if loops run for a number of times that fits a count. -/
def Rules.counted : Rules := ⟨True, True, Count.Valid, True, True⟩

/-- How far a tape has come. -/
def TapeState.stage : TapeState → Nat
  | .building => 0
  | .scheduled => 1
  | .allocated .. => 2
  | .finished _ => 3

theorem TapeState.stage_eq_zero (h : s.stage = 0) : s = .building := by
  cases s with
  | building => rfl
  | scheduled | allocated | finished => cases h

theorem TapeState.stage_eq_one (h : s.stage = 1) : s = .scheduled := by
  cases s with
  | building | allocated | finished => cases h
  | scheduled => rfl

namespace Tape

variable {options : Options} {calls : Prop} {t' : Tape}

theorem Edit.stage_le (h : Edit options calls t t') : t.state.stage ≤ t'.state.stage := by
  have hstart (hb : t.isBuilding = true) : t.state.stage ≤ t'.state.stage := by
    rw [of_decide_eq_true hb]
    exact Nat.zero_le _
  cases h with
  | note h => rw [h.state]
  | registers | push | prologue | setOps | declare | place => exact le_rfl
  | startBlock hb | openLoop hb | endLoop hb | beginIf hb | beginElse hb | endIf hb
  | beginFunction hb | endFunction hb | close hb => exact hstart hb
  | allocate hstate _ _ _ =>
    rw [hstate]
    exact Nat.le_succ 1
  | encode hstate _ _ _ _ _ _ =>
    rw [hstate]
    exact Nat.le_succ 2

theorem Edits.stage_le (h : Edits options calls t t') : t.state.stage ≤ t'.state.stage := by
  induction h with
  | refl => exact le_rfl
  | tail _ h ih => exact ih.trans h.stage_le

end Tape

namespace Program

theorem Evolves.stage_le (h : Evolves p q) (hid : id < p.tapes.size) :
    (p.tapeAt id).state.stage ≤ (q.tapeAt id).state.stage :=
  (h.tape hid).stage_le

/-- The program is well built: everything that compiling relies on. -/
structure Sturdy (p : Program) : Prop where
  coherent : p.Coherent
  graphs : p.Graphs
  ended : ∀ id, (p.tapeAt id).Ended
  rooted : Rooted .empty p

theorem Evolves.ended (h : Evolves p q) (hgraphs : p.Graphs) (hended : ∀ id, (p.tapeAt id).Ended)
    (id : TapeId) : (q.tapeAt id).Ended := by
  by_cases hid : id < p.tapes.size
  · exact (h.tape hid).ended (hgraphs id hid) (hended id)
  · by_cases hborn : id < q.tapes.size
    · obtain ⟨name, kind, singular, root, hedits⟩ := h.born (not_lt.1 hid) hborn
      exact hedits.ended (fun _ => .new ..) nofun
    · rw [tapeAt_of_size_le (not_lt.1 hborn)]
      nofun

theorem Sturdy.run {α : Type} {act : BuildM α} (h : p.Sturdy) (hlawful : BuildM.Lawful act)
    (hrooted : Maintains (Rooted .empty) act) : (act.run p).2.Sturdy :=
  have hends := (hlawful p h.coherent).ends
  ⟨hends.coherent, hends.graphs h.graphs, hends.ended h.graphs h.ended, hrooted p h.rooted⟩

theorem BuiltUnder.sturdy {outer inner : Rules} (h : p.BuiltUnder outer inner)
    (houter : outer.Counted) (hinner : inner.Counted) : p.Sturdy := by
  have hrooted := h.rooted houter hinner
  obtain ⟨name, options, start, α, act, hnew, hact, rfl⟩ := h
  have hends := (hact.api.lawful start (coherent_of_new hnew)).ends
  have hended (id : TapeId) : (start.tapeAt id).Ended := by
    unfold Program.new at hnew
    split at hnew
    · cases hnew
    · cases hnew
      rcases Nat.eq_zero_or_pos id with rfl | hid
      · nofun
      · rw [tapeAt_of_size_le hid]
        nofun
  exact ⟨hends.coherent, hends.graphs (graphs_of_new hnew), hends.ended (graphs_of_new hnew) hended,
    hrooted⟩

/-! ## Programs that are blocked -/

/-- What stops a program for good. -/
inductive Blocked (p : Program) : Prop
  | main (h : (p.tapeAt mainTape).scopes ≠ [])
  | scope {id : TapeId} (hid : id < p.tapes.size) (hb : (p.tapeAt id).isBuilding = true)
      (h : (p.tapeAt id).scopes ≠ [])
  | crowded (h : BuildM.Crowded p)
  | unallocatable {id : TapeId} (hid : id < p.tapes.size)
      (h : BuildM.Unallocatable p.options p.tree (p.tapeAt id))

end Program

namespace BuildM

/-- The tape stays as it is while others are compiled. -/
structure Untouched (n : Nat) (p : Program) (id : TapeId) (q : Program) : Prop where
  coherent : q.Coherent
  rooted : Rooted p.tree q
  options : q.options = p.options
  size_le : n ≤ q.tapes.size
  tape : q.tapeAt id = p.tapeAt id

theorem Untouched.run {α : Type} {act : BuildM α} (h : Untouched n p id q) (hlawful : Lawful act)
    (hrooted : Maintains (Rooted p.tree) act) (hr : (act.run q).2 = r)
    (htape : r.tapeAt id = q.tapeAt id) : Untouched n p id r := by
  subst hr
  have hends := (hlawful q h.coherent).ends
  exact ⟨hends.coherent, hrooted q h.rooted, hends.options.trans h.options,
    h.size_le.trans hends.size_le, htape.trans h.tape⟩

/-- The tape does not change when it is scheduled: it has been scheduled already, or has an open
scope. -/
def Unmoved (t : Tape) : Prop := t.isBuilding = true → t.scopes ≠ []

theorem run_scheduleTape_of_unmoved (h : Unmoved (q.tapeAt id)) : ((scheduleTape id).run q).2 = q := by
  by_cases hb : (q.tapeAt id).isBuilding = true
  · obtain ⟨e, herror⟩ := run_checkScopes_error (h hb)
    rw [run_scheduleTape hb, run_bind_error herror]
  · unfold scheduleTape
    rw [run_get_bind, if_neg hb]
    rfl

theorem untouched_scheduleTape (hid : id < n) (hunmoved : Unmoved (p.tapeAt id)) (hk : k < n) :
    Maintains (Untouched n p id) (scheduleTape k) := by
  intro q hq
  refine hq.run (lawful_scheduleTape k) (rooted_scheduleTape k) rfl ?_
  by_cases hkid : k = id
  · subst hkid
    rw [run_scheduleTape_of_unmoved (hq.tape ▸ hunmoved)]
  · exact (spares_scheduleTape (hk.trans_le hq.size_le) q (.refl q k)).tape id
      (hid.trans_le hq.size_le) (Ne.symm hkid)

theorem untouched_closeMain (hid : id < n)
    (hmain : id = mainTape → (p.tapeAt id).isBuilding = false) :
    Maintains (Untouched n p id) closeMain := by
  intro q hq
  refine hq.run lawful_closeMain rooted_closeMain rfl ?_
  by_cases hne : id = mainTape
  · have hb : ¬ (q.tapeAt mainTape).isBuilding = true := by
      rw [← hne, hq.tape, hmain hne]
      nofun
    by_cases hscopes : (q.tapeAt mainTape).scopes = []
    · rw [run_closeMain_of_not hb hscopes]
    · obtain ⟨e, herror⟩ := run_checkScopes_error hscopes
      rw [closeMain, run_bind_error herror]
  · exact (spares_closeMain hq.coherent.main_lt q (.refl q _)).tape id
      (hid.trans_le hq.size_le) hne

theorem Untouched.grow (h : Untouched n p id q) {m : Nat} (hm : m ≤ q.tapes.size) :
    Untouched m p id q := ⟨h.coherent, h.rooted, h.options, hm, h.tape⟩

theorem untouched_scheduleAll (hid : id < n) (hunmoved : Unmoved (p.tapeAt id)) :
    Maintains (Untouched n p id) scheduleAll := by
  intro q hq
  have hloop {m : Nat} (hm : n ≤ m) (ks : List TapeId) (hks : ∀ k ∈ ks, k < m) :
      Maintains (Untouched m p id) (ks.forM scheduleTape) := by
    induction ks with
    | nil => exact .pure _
    | cons k ks ih =>
      refine Maintains.bind (k := fun _ => ks.forM scheduleTape)
        (untouched_scheduleTape (hid.trans_le hm) hunmoved (hks k (.head _)))
        fun _ => ih fun j hj => hks j (.tail _ hj)
  have hfirst := hloop hq.size_le (List.range q.tapes.size) (fun k hk => mem_range.1 hk) q
    (hq.grow le_rfl)
  rw [scheduleAll, run_get_bind]
  refine run_bind_cases (Untouched n p id) (fun e r hrun => ?_) fun _ r hrun => ?_
  · rw [hrun] at hfirst
    exact hfirst.grow (hq.size_le.trans hfirst.size_le)
  · rw [hrun] at hfirst
    rw [run_get_bind]
    have hsecond := hloop (hq.size_le.trans hfirst.size_le)
      (List.range' q.tapes.size (r.tapes.size - q.tapes.size)) (fun k hk => ?_) r
      (hfirst.grow le_rfl)
    · exact hsecond.grow ((hq.size_le.trans hfirst.size_le).trans hsecond.size_le)
    · have hsize := hfirst.size_le
      rw [mem_range'_1] at hk
      exact lt_of_lt_of_eq hk.2 (Nat.add_sub_cancel' hsize)

theorem untouched_ensureAllocated (hid : id < n) (hk : k < n) (hne : k ≠ id) :
    Maintains (Untouched n p id) (ensureAllocated k) := by
  intro q hq
  refine hq.run (lawful_ensureAllocated k) (rooted_ensureAllocated k) rfl ?_
  exact (spares_ensureAllocated (hk.trans_le hq.size_le) q (.refl q k)).tape id
    (hid.trans_le hq.size_le) (Ne.symm hne)

end BuildM

namespace Program

theorem Sturdy.untouched (h : p.Sturdy) (id : TapeId) : BuildM.Untouched p.tapes.size p id p :=
  ⟨h.coherent, h.rooted.rebase, rfl, le_rfl, rfl⟩

open BuildM

theorem exists_run_scheduleTape_error (hb : (p.tapeAt id).isBuilding)
    (hscopes : (p.tapeAt id).scopes ≠ []) : ∃ e q, (scheduleTape id).run p = (.error e, q) := by
  obtain ⟨e, herror⟩ := run_checkScopes_error hscopes
  refine ⟨e, p, ?_⟩
  rw [run_scheduleTape hb, run_bind_error herror]

theorem Blocked.run_finish (h : p.Blocked) (hp : p.Sturdy) : ∃ e q, finish.run p = (.error e, q) := by
  have hmain (hscopes : (p.tapeAt mainTape).scopes ≠ []) : ∃ e q, finish.run p = (.error e, q) := by
    obtain ⟨e, herror⟩ := run_checkScopes_error hscopes
    exact ⟨e, p, run_bind_error (run_bind_error herror _) _⟩
  cases h with
  | main hscopes => exact hmain hscopes
  | crowded hcrowded =>
    obtain ⟨e, q, hrun⟩ := hcrowded.run_closeMain
    exact ⟨e, q, run_bind_error hrun _⟩
  | @scope id hid hb hscopes =>
    by_cases hne : id = mainTape
    · exact hmain (hne ▸ hscopes)
    · -- the tape stays open until it is scheduled
      have hunmoved : Unmoved (p.tapeAt id) := fun _ => hscopes
      refine exists_run_bind_error (untouched_closeMain hid fun h => absurd h hne) (fun _ q hq => ?_)
        (hp.untouched id)
      have hloop : ∃ e r, ((List.range q.tapes.size).forM scheduleTape).run q = (.error e, r) := by
        refine exists_run_forM_error (I := Untouched q.tapes.size p id)
          (mem_range.2 (hid.trans_le hq.size_le)) (fun k hk _ => ?_) (fun r hr => ?_)
          (hq.grow le_rfl)
        · exact untouched_scheduleTape (hid.trans_le hq.size_le) hunmoved (mem_range.1 hk)
        · exact exists_run_scheduleTape_error (hr.tape ▸ hb) (hr.tape ▸ hscopes)
      obtain ⟨e, r, hrun⟩ := hloop
      refine ⟨e, r, run_bind_error ?_ _⟩
      rw [scheduleAll, run_get_bind, run_bind_error hrun]
  | @unallocatable id hid hun =>
    have hb : (p.tapeAt id).isBuilding = false := by
      rw [Tape.isBuilding, hun.scheduled]
      rfl
    have hunmoved : Unmoved (p.tapeAt id) := fun h => by
      rw [hb] at h
      cases h
    refine exists_run_bind_error (untouched_closeMain hid fun _ => hb) (fun _ q hq => ?_)
      (hp.untouched id)
    refine exists_run_bind_error (untouched_scheduleAll hid hunmoved) (fun _ r hr => ?_) hq
    rw [run_get_bind]
    have hlt : id < r.tapes.size := hid.trans_le hr.size_le
    have hloop : ∃ e u, ((List.range r.tapes.size).forM ensureAllocated).run r = (.error e, u) := by
      refine exists_run_forM_error (I := Untouched r.tapes.size p id) (mem_range.2 hlt)
        (fun k hk hne => untouched_ensureAllocated hlt (mem_range.1 hk) hne) (fun u hu => ?_)
        (hr.grow le_rfl)
      have hsame : Unallocatable u.options p.tree (u.tapeAt id) := by
        rw [hu.options, hu.tape]
        exact hun
      exact hsame.run_ensureAllocated hu.rooted
    obtain ⟨e, u, hrun⟩ := hloop
    exact ⟨e, u, run_bind_error hrun _⟩

/-! ## Where a finalization stops -/

/-- A step by which tapes are prepared: the main tape is closed, or a tape is scheduled. -/
def Prepares (p q : Program) : Prop :=
  closeMain.run p = (.ok ⟨⟩, q) ∨ ∃ id, (scheduleTape id).run p = (.ok ⟨⟩, q)

/-- While tapes were prepared, a macro call could not be expanded. -/
def HalfScheduled (p q : Program) : Prop :=
  ∃ r id, Relation.ReflTransGen Prepares p r ∧ TapeExpansionFails id r q

theorem Sturdy.prepares (h : p.Sturdy) (hpq : Relation.ReflTransGen Prepares p q) : q.Sturdy := by
  induction hpq with
  | refl => exact h
  | tail _ hstep ih =>
    rcases hstep with hrun | ⟨id, hrun⟩
    · have hr := ih.run lawful_closeMain rooted_closeMain
      rwa [hrun] at hr
    · have hr := ih.run (lawful_scheduleTape id) (rooted_scheduleTape id)
      rwa [hrun] at hr

variable {ids : List TapeId}

theorem exists_of_run_scheduleReachable_error
    (h : (scheduleReachable fuel met stack).run p = (.error e, q)) :
    ∃ r id, Relation.ReflTransGen Prepares p r ∧ (scheduleTape id).run r = (.error e, q) := by
  induction fuel generalizing p met stack with
  | zero => cases h
  | succ fuel ih =>
    cases stack with
    | nil => cases h
    | cons id stack =>
      rw [scheduleReachable] at h
      split at h
      · exact ih h
      · rcases hrun : (scheduleTape id).run p with ⟨e' | _, r⟩
        · rw [run_bind_error hrun] at h
          cases h
          exact ⟨p, id, .refl, hrun⟩
        · rw [run_bind_ok hrun, run_get_bind] at h
          obtain ⟨u, k, hu, hk⟩ := ih h
          exact ⟨u, k, .head (.inr ⟨id, hrun⟩) hu, hk⟩

/-- The tape has come so far. -/
structure Reached (n : Nat) (id : TapeId) (p : Program) : Prop where
  coherent : p.Coherent
  lt : id < p.tapes.size
  stage : n ≤ (p.tapeAt id).state.stage

theorem Reached.maintains {α : Type} {act : BuildM α} (hact : Lawful act) (n : Nat) (id : TapeId) :
    Maintains (Reached n id) act := by
  intro p hp
  have hends := (hact p hp.coherent).ends
  exact ⟨hends.coherent, hp.lt.trans_le hends.size_le, hp.stage.trans (hends.stage_le hp.lt)⟩

theorem reached_of_run_scheduleTape (hp : p.Coherent) (hid : id < p.tapes.size)
    (h : (scheduleTape id).run p = (.ok ⟨⟩, q)) : Reached 1 id q := by
  by_cases hb : (p.tapeAt id).isBuilding = true
  · rw [run_scheduleTape hb] at h
    obtain ⟨_, r, hscopes, h⟩ := of_run_bind_ok h
    have hnil := ((meets_checkScopes hp id).result _ _ hscopes).2
    cases (reads_checkScopes id).run_eq hscopes
    rw [run_bind_ok (run_modify _ p)] at h
    have hclose := evolves_close hp hb hnil
    have hlt := hclose.lt hid
    have hstate := state_close hid
    have hends := (meets_closedBlocks hclose.coherent hlt hstate).ends
    rw [h] at hends
    refine ⟨hends.coherent, hends.lt hlt, ?_⟩
    rw [hends.state, hstate]
    exact Nat.le_refl 1
  · unfold scheduleTape at h
    rw [run_get_bind, if_neg hb] at h
    cases h
    exact ⟨hp, hid, Nat.pos_of_ne_zero fun hzero => hb (decide_eq_true (TapeState.stage_eq_zero hzero))⟩

theorem reached_of_run_ensureAllocated (hp : Reached 1 id p)
    (h : (ensureAllocated id).run p = (.ok ⟨⟩, q)) : Reached 2 id q := by
  by_cases hstate : (p.tapeAt id).state = .scheduled
  · have hends := (lawful_ensureAllocated id p hp.coherent).ends
    rw [h] at hends
    refine ⟨hends.coherent, hp.lt.trans_le hends.size_le, ?_⟩
    rw [run_ensureAllocated hstate] at h
    obtain ⟨is, r, his, h⟩ := of_run_bind_ok h
    obtain ⟨_, r₁, h₁, h⟩ := of_run_bind_ok h
    obtain ⟨usage, r₂, h₂, h⟩ := of_run_bind_ok h
    obtain ⟨_, r₃, h₃, h⟩ := of_run_bind_ok h
    obtain ⟨_, r₄, h₄, h⟩ := of_run_bind_ok h
    cases h
    have hlt := hp.lt.trans_le hends.size_le
    rw [size_modifyTape] at hlt
    rw [tapeAt_modifyTape_self hlt]
    exact Nat.le_refl 2
  · unfold ensureAllocated at h
    rw [run_get_bind, if_neg hstate] at h
    cases h
    refine ⟨hp.coherent, hp.lt, lt_of_le_of_ne hp.stage fun hone => ?_⟩
    exact hstate (TapeState.stage_eq_one hone.symm)

theorem reached_of_run_forM (hmem : id ∈ ids) (hp : Reached 1 id p)
    (h : (ids.forM ensureAllocated).run p = (.ok ⟨⟩, q)) : Reached 2 id q := by
  induction ids generalizing p with
  | nil => cases hmem
  | cons k ids ih =>
    change (ensureAllocated k >>= fun _ => ids.forM ensureAllocated).run p = _ at h
    obtain ⟨_, r, hk, hids⟩ := of_run_bind_ok h
    rcases mem_cons.1 hmem with rfl | hmem
    · have hrest := Reached.maintains (Lawful.forM lawful_ensureAllocated ids) 2 id r
        (reached_of_run_ensureAllocated hp hk)
      rwa [hids] at hrest
    · have hr := Reached.maintains (lawful_ensureAllocated k) 1 id p hp
      rw [hk] at hr
      exact ih hmem hr hids

theorem subset_of_run_scheduleReachable
    (h : (scheduleReachable fuel met stack).run p = (.ok ids, q)) : met ⊆ ids := by
  induction fuel generalizing p met stack with
  | zero =>
    cases h
    exact fun _ => id
  | succ fuel ih =>
    cases stack with
    | nil =>
      cases h
      exact fun _ => id
    | cons k stack =>
      rw [scheduleReachable] at h
      split at h
      · exact ih h
      · obtain ⟨_, r, -, h⟩ := of_run_bind_ok h
        rw [run_get_bind] at h
        exact fun _ hx => ih h (mem_append_left _ hx)

theorem of_run_scheduleClosure (hp : p.Coherent) (hid : id < p.tapes.size)
    (h : (scheduleClosure id).run p = (.ok ids, q)) : id ∈ ids ∧ Reached 1 id q := by
  rw [scheduleClosure, run_get_bind, scheduleReachable, if_neg not_mem_nil] at h
  obtain ⟨_, r, hrun, h⟩ := of_run_bind_ok h
  rw [run_get_bind] at h
  refine ⟨subset_of_run_scheduleReachable h (mem_append_right _ (.head _)), ?_⟩
  have hq := Reached.maintains (compiles_lawful.scheduleReachable (callBound p) ([] ++ [id])
    ((r.tapeAt id).callees.reverse ++ [])) 1 id r (reached_of_run_scheduleTape hp hid hrun)
  rwa [h] at hq

theorem blocked_of_run_forM_error (hp : p.Sturdy)
    (h : (ids.forM ensureAllocated).run p = (.error e, q)) : q.Blocked := by
  obtain ⟨before, id, after, r, -, hbefore, hrun⟩ := exists_of_run_forM_error h
  have hr := hp.run (Lawful.forM lawful_ensureAllocated before) (.forM rooted_ensureAllocated before)
  rw [hbefore] at hr
  have hun := unallocatable_of_run hr.rooted (hr.ended id) hrun
  have hends := (lawful_ensureAllocated id r hr.coherent).ends
  rw [hrun] at hends
  refine .unallocatable ?_ (hends.options ▸ hun)
  by_contra hid
  have hscheduled := hun.scheduled
  rw [tapeAt_of_size_le (not_lt.1 hid)] at hscheduled
  cases hscheduled

theorem exists_run_encodeTape (hp : Reached 2 id p) : ∃ q, (encodeTape id).run p = (.ok ⟨⟩, q) := by
  rw [encodeTape, run_get_bind]
  have hstage := hp.stage
  cases hstate : (p.tapeAt id).state with
  | building | scheduled =>
    rw [hstate] at hstage
    exact absurd hstage (by decide)
  | allocated | finished =>
    simp only [hstate]
    exact ⟨_, rfl⟩

theorem of_run_closure_error (hp : p.Sturdy) (hid : id < p.tapes.size)
    (h : (do
      (← scheduleClosure id).forM ensureAllocated
      encodeTape id : BuildM Unit).run p = (.error e, q)) : q.Blocked ∨ HalfScheduled p q := by
  rcases hclosure : (scheduleClosure id).run p with ⟨e' | ids, r⟩
  · rw [run_bind_error hclosure] at h
    cases h
    rw [scheduleClosure, run_get_bind] at hclosure
    obtain ⟨r, k, hpr, hrun⟩ := exists_of_run_scheduleReachable_error hclosure
    rcases of_run_scheduleTape_error (hp.prepares hpr).coherent hrun with ⟨rfl, hb, hscopes⟩ | hfails
    · have hk : k < q.tapes.size := by
        by_contra hk
        rw [tapeAt_of_size_le (not_lt.1 hk)] at hscopes
        exact hscopes rfl
      exact .inl (.scope hk hb hscopes)
    · exact .inr ⟨r, k, hpr, hfails⟩
  · obtain ⟨hmem, hreached⟩ := of_run_scheduleClosure hp.coherent hid hclosure
    have hr := hp.run (compiles_lawful.scheduleClosure id)
      (compiles_rooted.scheduleClosure id)
    rw [hclosure] at hr
    rw [run_bind_ok hclosure] at h
    rcases hallocate : (ids.forM ensureAllocated).run r with ⟨e' | _, u⟩
    · rw [run_bind_error hallocate] at h
      cases h
      exact .inl (blocked_of_run_forM_error hr hallocate)
    · rw [run_bind_ok hallocate] at h
      obtain ⟨v, hencode⟩ := exists_run_encodeTape (reached_of_run_forM hmem hreached hallocate)
      cases hencode.symm.trans h

/-- What stops a finalization: the program is blocked, or a macro call could not be expanded. -/
theorem of_run_finalizeTape_error (hp : p.Sturdy) (hid : id < p.tapes.size)
    (h : (finalizeTape id).run p = (.error e, q)) : q.Blocked ∨ HalfScheduled p q := by
  have htape : (tape id).run p = (.ok (p.tapeAt id), p) := by
    rw [tape, run_get_bind, Array.getElem?_eq_getElem hid, tapeAt, Array.getD_eq_getD_getElem?,
      Array.getElem?_eq_getElem hid]
    rfl
  rw [finalizeTape, run_bind_ok htape] at h
  split at h
  · rcases hclose : closeMain.run p with ⟨e' | _, r⟩
    · rw [run_bind_error hclose] at h
      cases h
      rcases of_run_closeMain_error hp.coherent.main_lt hclose with ⟨rfl, hscopes⟩ | hcrowded
      · exact .inl (.main hscopes)
      · exact .inl (.crowded hcrowded)
    · rw [run_bind_ok hclose] at h
      have hr := hp.prepares (.single (.inl hclose))
      have hends := (lawful_closeMain p hp.coherent).ends
      rw [hclose] at hends
      rcases of_run_closure_error hr (hid.trans_le hends.size_le) h with
        hblocked | ⟨u, k, hru, hfails⟩
      · exact .inl hblocked
      · exact .inr ⟨u, k, .head (.inl hclose) hru, hfails⟩
  · exact of_run_closure_error hp hid h

/-- After a finalization that failed the program cannot be finished, unless the failure was that of
a macro call that could not be expanded. -/
theorem finish_fails_after_failure (hp : p.BuiltUnder .counted .counted) (hid : id < p.tapes.size)
    {e : CompileError} (hfail : (finalizeTape id).run p = (.error e, q))
    (hexpanded : ¬ HalfScheduled p q) : ∃ e', (finish.run q).1 = .error e' := by
  have hsturdy : p.Sturdy := hp.sturdy (fun _ h => h) fun _ h => h
  have hq := hsturdy.run (lawful_finalizeTape id) (compiles_rooted.finalizeTape id)
  rw [hfail] at hq
  have hblocked := (of_run_finalizeTape_error hsturdy hid hfail).resolve_right hexpanded
  obtain ⟨e', r, hrun⟩ := hblocked.run_finish hq
  exact ⟨e', congrArg Prod.fst hrun⟩

/-- What an action makes of a new program with so many registers. -/
def builtWithin {α : Type} (limit : Nat) (act : BuildM α) : Program :=
  match Program.new "main" { registerLimit := limit } with
  | .ok start => (act.run start).2
  | .error _ => default

def addNumbers : BuildM Unit := do
  let x ← newInteger
  let y ← newInteger
  loadInt x 1
  loadInt y 2
  addInt x x y

theorem builtUnder_addNumbers : (builtWithin 1 addNumbers).BuiltUnder .counted .counted := by
  have hadd (x y : Reg) : BuildM.Follows .counted .counted (addInt x x y) := by
    unfold addInt emitRegs
    exact .emit (.inl trivial) _
  have hfollows : BuildM.Follows .counted .counted addNumbers :=
    .bind .newInteger fun x => .bind .newInteger fun y => .bind (.emit (.inl trivial) _) fun _ =>
      .bind (.emit (.inl trivial) _) fun _ => hadd x y
  exact ⟨"main", { registerLimit := 1 }, _, _, addNumbers, rfl, hfollows, rfl⟩

theorem run_scheduleTape_of_size_le (h : p.tapes.size ≤ id) :
    (scheduleTape id).run p = (.ok ⟨⟩, p) := by
  have hnone : p.tapeAt id = default := tapeAt_of_size_le h
  have hsame : p.modifyTape id closeTape = p := by
    rw [modifyTape, Array.modify, Array.modifyM, dif_neg (Nat.not_lt.2 h)]
    rfl
  have hb : (p.tapeAt id).isBuilding = true := by
    rw [hnone]
    rfl
  have hscopes : (p.tapeAt id).scopes = [] := by
    rw [hnone]
    rfl
  rw [run_scheduleTape hb, run_bind_ok (run_checkScopes_ok hscopes), run_bind_ok (run_modify _ p),
    hsame, scheduleBlocks, run_get_bind, hnone]
  rfl

theorem isBuilding_scheduled_addNumbers :
    (((scheduleTape 0).run (builtWithin 1 addNumbers)).2.tapeAt 0).isBuilding = false := by
  decide +kernel

/-- However its tapes are prepared, the main tape is as it was or scheduled. -/
theorem eq_of_prepares_addNumbers (h : Relation.ReflTransGen Prepares (builtWithin 1 addNumbers) r) :
    r = builtWithin 1 addNumbers ∨ r = ((scheduleTape 0).run (builtWithin 1 addNumbers)).2 := by
  have hb := isBuilding_scheduled_addNumbers
  set p := builtWithin 1 addNumbers with hp
  induction h with
  | refl => exact .inl rfl
  | @tail r u _ hstep ih =>
    rcases hstep with hclose | ⟨id, hrun⟩
    · -- there is no memory to declare
      have hsame : closeMain.run r = (.ok ⟨⟩, r) := by
        rcases ih with rfl | rfl
        · rfl
        · refine run_closeMain_of_not (Bool.eq_false_iff.1 hb) ?_
          rw [hp]
          decide +kernel
      cases hclose.symm.trans hsame
      exact ih
    · by_cases hid : id < 1
      · cases Nat.lt_one_iff.1 hid
        rcases ih with rfl | rfl
        · rw [hrun]
          exact .inr rfl
        · have hsame := run_scheduleTape_of_unmoved (fun h => absurd h (Bool.eq_false_iff.1 hb))
          rw [hrun] at hsame
          exact .inr hsame
      · have hsize : r.tapes.size = 1 := by rcases ih with rfl | rfl <;> rw [hp] <;> decide +kernel
        cases hrun.symm.trans (run_scheduleTape_of_size_le (hsize.trans_le (not_lt.1 hid)))
        exact ih

theorem not_halfScheduled_addNumbers : ¬ HalfScheduled (builtWithin 1 addNumbers) q := by
  rintro ⟨r, id, hr, hb, -, k, u, hk, hu, e, hexpand⟩
  have hid : id < r.tapes.size := by
    by_contra hid
    rw [tapeAt_of_size_le (by rw [size_modifyTape]; exact not_lt.1 hid)] at hk
    cases hk
  have hsize : r.tapes.size = 1 := by
    rcases eq_of_prepares_addNumbers hr with rfl | rfl <;> decide +kernel
  cases Nat.lt_one_iff.1 (hsize ▸ hid)
  rcases eq_of_prepares_addNumbers hr with rfl | rfl
  · have hzero : k = 0 := Nat.lt_one_iff.1 (hk.trans_eq (by decide +kernel))
    subst hzero
    cases hu
    have hok : ((expandBlock (mergeOptions (builtWithin 1 addNumbers).options) 0 0
        ((builtWithin 1 addNumbers).modifyTape 0 closeTape)).run
          (takeOut ((builtWithin 1 addNumbers).modifyTape 0 closeTape) 0 0)).1.toBool = true := by
      decide +kernel
    rw [hexpand] at hok
    cases hok
  · exact absurd hb (Bool.eq_false_iff.1 isBuilding_scheduled_addNumbers)

/-- There is only one register for the two numbers. -/
theorem finish_fails_after_failure_registers : ∃ e q,
    (finalizeTape 0).run (builtWithin 1 addNumbers) = (.error e, q) ∧
      ∃ e', (finish.run q).1 = .error e' := by
  have hcheck : ((finalizeTape 0).run (builtWithin 1 addNumbers)).1.toBool = false := by
    decide +kernel
  rcases hfail : (finalizeTape 0).run (builtWithin 1 addNumbers) with ⟨e | _, q⟩
  · exact ⟨e, q, rfl, finish_fails_after_failure builtUnder_addNumbers (by decide) hfail
      not_halfScheduled_addNumbers⟩
  · rw [hfail] at hcheck
    cases hcheck

def setBoth : BuildM Unit := do
  let setOne : MacroBody := ⟨"set", [], [(.int, .write)], fun args => args.forM (loadInt · 1)⟩
  let x ← newVector .int 5
  let y ← newVector .int 5
  modify ({ · with policy := .callAlways })
  callMacro setOne [x]
  callMacro setOne [y]

/-- The two calls are to be one call on ten registers, but there are only eight: the tape cannot be
finalized, nor can the program be finished. After the attempt it can, and both calls are gone. -/
theorem truncated_after_failure :
    let p := builtWithin 8 setBoth
    let q := ((finalizeTape 0).run p).2
    (finish.run p).1.toBool = false ∧ ((finalizeTape 0).run p).1.toBool = false ∧
      (finish.run q).1.toOption.map (fun c => c.tapes.map (·.bytecode)) = some [[]] := by
  decide +kernel

/-! ## Early finalization -/

/-- A macro calls a function with a number of its own and a parameter, and passes it its
argument. -/
def passInMacro : BuildM Unit := do
  let (callee, param) ← newFunction "f" do
    let own ← newInteger
    let param ← tapeParameter .int 1
    loadInt own 5
    storeMemory own 0
    storeMemory param 1
    return param
  let x ← newInteger
  modify ({ · with policy := .inlineAlways })
  loadInt x 3
  callMacro ⟨"m", [], [(.int, .read)], fun args => callTape callee (args.map (⟨param, ·, false⟩))⟩ [x]

/-- The call that a macro brings is not noted in the tape, so that finalizing the tape early encodes
the virtual register of the parameter: the code differs from that of a program that is just
finished. -/
theorem early_finalization_changes_code :
    let p := builtBy passInMacro
    let early := (finalizeTape 0).run p
    let code (c : CompiledProgram) := c.tapes.map (·.bytecode)
    early.1.toBool = true ∧ (finish.run p).1.toBool = true ∧ (finish.run early.2).1.toBool = true ∧
      (finish.run early.2).1.toOption.map code ≠ (finish.run p).1.toOption.map code := by
  decide +kernel

end Program

end SecureTape
