import Mathlib
import SecureTape.Proofs.ArrangedCalls
import SecureTape.Proofs.DeadCode
import SecureTape.Proofs.StructuredPrograms

/-!
# Scheduled regions

What scheduling makes of programs without macro calls. Main statements:
1. `BuildM.of_run_scheduleBlock`: a block becomes arranged code and the jump of its exit, and what
   it uses is charged to its node.
2. `Program.accounted_scheduleAll`: every tape is scheduled, and what its blocks use is charged.
-/

open SecureTape.Action Finset

namespace SecureTape

open List

open Program RequirementTree

/-! ## Jumps -/

variable {k n : Nat} {b : Block} {regs : RegisterFile} {id : TapeId} {p q : Program}
  {loops : List DeclaredLoop}

def ExitKind.jump : ExitKind → Instruction
  | .always => ⟨.jmp, .base, 1, [.number 0]⟩
  | .ifNonZero cond => ⟨.jmpnz, .base, 1, [.reg cond, .number 0]⟩
  | .ifZero cond => ⟨.jmpeqz, .base, 1, [.reg cond, .number 0]⟩

def Block.jumps (b : Block) : List Op := b.exit.toList.map fun e => .inst e.kind.jump

/-- The block `b'` is the scheduled code of `b`: instructions without jumps that call no more than
`b`, and the jump of its exit. Its usage covers what the code uses. -/
structure Block.Arranged (n : Nat) (b b' : Block) : Prop where
  exit : b'.exit = b.exit
  node : b'.node = b.node
  code : ∃ body, (∀ op ∈ body, op.Direct n) ∧
    (body.filterMap Op.callee?).Subperm (b.ops.filterMap Op.callee?) ∧ b'.ops = body ++ b.jumps
  usage : ∀ key, (((b'.ops.map (Op.uses key)).sum : Nat) : ℕ∞) ≤ (b'.usage.get key).value

theorem Block.Arranged.of_calls {c b' : Block} (h : Block.Arranged n c b') (hexit : c.exit = b.exit)
    (hnode : c.node = b.node) (hcalls : c.ops.filterMap Op.callee? = b.ops.filterMap Op.callee?) :
    b.Arranged n b' := by
  obtain ⟨body, hdirect, hsub, hops⟩ := h.code
  refine ⟨h.exit.trans hexit, h.node.trans hnode, ⟨body, hdirect, hcalls ▸ hsub, ?_⟩, h.usage⟩
  rw [hops, jumps, hexit, jumps]

theorem Tape.modifyBlock_modifyBlock (t : Tape) (index : BlockId) (f g : Block → Block) :
    (t.modifyBlock index f).modifyBlock index g = t.modifyBlock index fun b => g (f b) := by
  unfold modifyBlock
  congr 1
  refine Array.ext_getElem? fun i => ?_
  simp only [Array.getElem?_modify]
  split
  · rw [Option.map_map]
    rfl
  · rfl

namespace Tape

/-- What the first `k` blocks use is charged to their nodes. -/
def Charges (tree : RequirementTree) (k : Nat) (t : Tape) : Prop :=
  ∀ key x, ∑ b ∈ Finset.range k with (t.block b).node = x, ((t.block b).usage.get key).value ≤
    tree.ownValue key x

variable {tree tree' : RequirementTree} {t t' : Tape}

theorem Charges.mono (h : t.Charges tree k) (htree : Extends tree tree') : t.Charges tree' k :=
  fun key x => (h key x).trans (htree.own_le key x)

theorem Charges.step (h : t.Charges tree k) (htree : tree.Sound) (hk : k < t.blocks.size)
    (hnode : b.node < tree.size) (husage : b.usage.Valid) :
    (t.modifyBlock k fun _ => b).Charges (tree.addUsage b.node b.usage) (k + 1) := by
  intro key x
  have hself : (t.modifyBlock k fun _ => b).block k = b := by
    rw [block_modifyBlock, if_pos ⟨rfl, hk⟩]
  have hother (i : BlockId) (hi : i ∈ Finset.range k) :
      (t.modifyBlock k fun _ => b).block i = t.block i := by
    rw [block_modifyBlock, if_neg fun h => ne_of_lt (Finset.mem_range.1 hi) h.1]
  have hsum : ∑ i ∈ range k with ((t.modifyBlock k fun _ => b).block i).node = x,
      (((t.modifyBlock k fun _ => b).block i).usage.get key).value =
        ∑ i ∈ range k with (t.block i).node = x, ((t.block i).usage.get key).value := by
    rw [sum_filter, sum_filter]
    refine sum_congr rfl fun i hi => ?_
    rw [hother i hi]
  rw [range_add_one, filter_insert, hself]
  split
  · rename_i hx
    rw [sum_insert (by simp), hself, hsum, add_comm, ← hx]
    exact (add_le_add (h key b.node) le_rfl).trans (add_le_ownValue_addUsage htree hnode husage key)
  · rw [hsum]
    exact (h key x).trans ((extends_addUsage htree hnode husage).own_le key x)

/-- The first `k` blocks of `t` are scheduled in `t'`, and what they use is charged. -/
structure SchedulesTo (tree : RequirementTree) (n k : Nat) (t t' : Tape) : Prop where
  frame : ∃ blocks, t' = { t with blocks }
  size : t'.blocks.size = t.blocks.size
  done : ∀ b, b < k → (t.block b).Arranged n (t'.block b)
  rest : ∀ b, k ≤ b → t'.block b = t.block b
  charged : t'.Charges tree k

theorem SchedulesTo.refl (tree : RequirementTree) (n : Nat) (t : Tape) :
    SchedulesTo tree n 0 t t where
  frame := ⟨t.blocks, rfl⟩
  size := rfl
  done _ hb := absurd hb (Nat.not_lt_zero _)
  rest _ _ := rfl
  charged _ _ := by simp

theorem SchedulesTo.step (h : SchedulesTo tree n k t t') (htree : tree.Sound)
    (hk : k < t.blocks.size) (hnode : (t.block k).node < tree.size) (hb : (t'.block k).Arranged n b)
    (husage : b.usage.Valid) :
    SchedulesTo (tree.addUsage (t'.block k).node b.usage) n (k + 1) t
      (t'.modifyBlock k fun _ => b) := by
  have hk' : k < t'.blocks.size := h.size ▸ hk
  obtain ⟨blocks, rfl⟩ := h.frame
  refine ⟨⟨_, rfl⟩, (size_modifyBlock ..).trans h.size, fun i hi => ?_, fun i hi => ?_, ?_⟩
  · rw [block_modifyBlock]
    split
    · rename_i heq
      rw [heq.1, ← h.rest k le_rfl]
      exact hb
    · rename_i hne
      exact h.done i (lt_of_le_of_ne (Nat.le_of_lt_succ hi) fun heq => hne ⟨heq, hk'⟩)
  · rw [block_modifyBlock, if_neg fun heq => ne_of_gt hi heq.1]
    exact h.rest i (Nat.le_of_succ_le hi)
  · rw [← hb.node]
    refine h.charged.step htree hk' ?_ husage
    rw [hb.node, h.rest k le_rfl]
    exact hnode

theorem Framed.closed_block (h : t.Framed tree n) {b : BlockId} (hb : b < t.blocks.size) :
    ((BuildM.closeTape t).block b).exit = (t.block b).exit ∧
      ((BuildM.closeTape t).block b).node = (t.block b).node ∧
      ((BuildM.closeTape t).block b).ops.filterMap Op.callee? =
        (t.block b).ops.filterMap Op.callee? ∧
      ∀ op ∈ ((BuildM.closeTape t).block b).ops, op.Direct n := by
  have hclose (c : Block) (hexit : c.isOpen = true → c.exit = none) :
      (c.close none).exit = c.exit ∧ (c.close none).node = c.node ∧ (c.close none).ops = c.ops := by
    unfold Block.close
    split
    · rename_i hopen
      exact ⟨(hexit hopen).symm, rfl, rfl⟩
    · exact ⟨rfl, rfl, rfl⟩
  rw [block_closeTape t hb]
  show (t.closed.block b).exit = _ ∧ (t.closed.block b).node = _ ∧
    (t.closed.block b).ops.filterMap _ = _ ∧ ∀ op ∈ (t.closed.block b).ops, _
  rw [block_closed t hb]
  split
  · obtain ⟨hexit, hnode, hops⟩ := hclose { t.block b with ops := t.prologue ++ (t.block b).ops }
      (h.exit_eq b)
    rw [hexit, hnode, hops]
    refine ⟨rfl, rfl, ?_, fun op hop => ?_⟩
    · have hnone : t.prologue.filterMap Op.callee? = [] := by
        refine filterMap_eq_nil_iff.2 fun op hop => ?_
        obtain ⟨i, rfl, hi⟩ := h.prologue op hop
        exact hi.callee?_eq_none
      rw [filterMap_append, hnone, nil_append]
    · rcases mem_append.1 hop with hop | hop
      · obtain ⟨i, rfl, hi⟩ := h.prologue op hop
        exact .of_plain hi n
      · exact h.direct b op hop
  · obtain ⟨hexit, hnode, hops⟩ := hclose (t.block b) (h.exit_eq b)
    rw [hexit, hnode, hops]
    exact ⟨rfl, rfl, rfl, h.direct b⟩

/-- The tape `t'` is what scheduling makes of `t`. -/
structure Scheduled (tree : RequirementTree) (n : Nat) (t t' : Tape) : Prop where
  scopes : t.scopes = []
  state : t'.state = .scheduled
  root : t'.root = t.root
  size : t'.blocks.size = t.blocks.size
  block : ∀ b, b < t.blocks.size → (t.block b).Arranged n (t'.block b)
  charged : t'.Charges tree t.blocks.size

theorem Scheduled.mono (h : Scheduled tree n t t') (htree : Extends tree tree') :
    Scheduled tree' n t t' :=
  { h with charged := h.charged.mono htree }

theorem SchedulesTo.scheduled (h : SchedulesTo tree n t.blocks.size (BuildM.closeTape t) t')
    (ht : t.Framed tree' n) (hscopes : t.scopes = []) : Scheduled tree n t t' := by
  obtain ⟨blocks, hframe⟩ := h.frame
  refine ⟨hscopes, ?_, ?_, h.size.trans (size_closeTape t), fun b hb => ?_, h.charged⟩
  · rw [hframe]
    rfl
  · rw [hframe]
    rfl
  · obtain ⟨hexit, hnode, hcalls, -⟩ := ht.closed_block hb
    exact (h.done b hb).of_calls hexit hnode hcalls

end Tape

namespace BuildM

theorem eq_of_exitJump {kind : ExitKind} {jump : Instruction} (h : exitJump regs kind = .ok jump) :
    jump = kind.jump := by
  have hmake {opcode : Opcode} {operands : List Operand}
      (h : Instruction.make opcode .base 1 operands regs = .ok jump) :
      jump = ⟨opcode, .base, 1, operands⟩ := by
    obtain ⟨-, -, -, -, -, heq⟩ := Instruction.of_make_eq_ok h
    rwa [ite_self] at heq
  cases kind with
  | always | ifNonZero | ifZero => exact hmake h

theorem of_run_appendJump {exit : Option Exit} {ops ops' : List Op}
    (h : (appendJump id exit ops).run p = (.ok ops', q)) :
    q = p ∧ ops' = ops ++ exit.toList.map fun e => .inst e.kind.jump := by
  cases exit with
  | none =>
    cases h
    exact ⟨rfl, (append_nil _).symm⟩
  | some e =>
    obtain ⟨p', m, hget, h⟩ := of_run_bind_ok h
    cases hget
    obtain ⟨jump, m', hjump, h⟩ := of_run_bind_ok h
    have hq := (Reads.liftM _).run_eq hjump
    cases h
    rw [eq_of_exitJump (congrArg Prod.fst hjump)]
    exact ⟨hq, rfl⟩

/-! ## Blocks -/

variable {options : MergeOptions}

theorem run_optimizeBlock (hdirect : ∀ op ∈ b.ops, op.Direct n) :
    (optimizeBlock id options regs b).run p =
      (.ok (optimize regs options (b.liveOut regs) b.ops), p) := by
  have hinst : (optimize regs options (b.liveOut regs) b.ops).1.all (·.inst?.isSome) = true := by
    refine all_eq_true.2 fun op hop => ?_
    obtain ⟨i, rfl, -⟩ := direct_optimize hdirect regs options (b.liveOut regs) op hop
    rfl
  unfold optimizeBlock
  simp only []
  rw [if_pos hinst]
  rfl

theorem of_run_scheduleBlock {index : BlockId} (hid : id < p.tapes.size)
    (hdirect : ∀ op ∈ ((p.tapeAt id).block index).ops, op.Direct n)
    (hrun : (scheduleBlock id options index).run p = (.ok ⟨⟩, q)) :
    ∃ b', ((p.tapeAt id).block index).Arranged n b' ∧ b'.usage.Valid ∧
      q.tapes.size = p.tapes.size ∧ q.tree = p.tree.addUsage ((p.tapeAt id).block index).node b'.usage ∧
      ∀ j, q.tapeAt j =
        if j = id then (p.tapeAt id).modifyBlock index fun _ => b' else p.tapeAt j := by
  rw [scheduleBlock_eq, run_get_bind, run_bind_ok (run_modify _ p),
    run_bind_ok (run_optimizeBlock hdirect)] at hrun
  have hbody := direct_optimize hdirect (p.tapeAt id).regs options
    (((p.tapeAt id).block index).liveOut (p.tapeAt id).regs)
  have hcalls := callees_optimize_subperm (p.tapeAt id).regs options
    (((p.tapeAt id).block index).liveOut (p.tapeAt id).regs) ((p.tapeAt id).block index).ops
  generalize optimize _ _ _ _ = result at hrun hbody hcalls
  obtain ⟨ops, m, hjump, hstore⟩ := of_run_bind_ok hrun
  obtain ⟨rfl, hops⟩ := of_run_appendJump hjump
  cases hstore
  refine ⟨{ (p.tapeAt id).block index with
    ops, rounds := result.2.rounds, groups := result.2.groups, usage := blockUsage ops result.2 },
    ⟨rfl, rfl, ⟨result.1, hbody, hcalls, hops⟩, uses_le_blockUsage ops result.2⟩,
    valid_blockUsage ops result.2, ?_, rfl, ?_⟩
  · exact (size_modifyTape ..).trans (size_modifyTape ..)
  · intro j
    show ((p.modifyTape id _).modifyTape id _).tapeAt j = _
    rw [modifyTape_modifyTape, tapeAt_modifyTape]
    by_cases hj : j = id
    · rw [if_pos ⟨hj, hid⟩, if_pos hj, Tape.modifyBlock_modifyBlock]
      exact Tape.modifyBlock_congr rfl
    · rw [if_neg fun h => hj h.1, if_neg hj]

theorem schedulesTo_of_run (hid : id < p.tapes.size)
    (htree : p.tree.Sound)
    (hblock : ∀ b, b < (p.tapeAt id).blocks.size → ((p.tapeAt id).block b).node < p.tree.size ∧
      ∀ op ∈ ((p.tapeAt id).block b).ops, op.Direct n)
    (hk : k ≤ (p.tapeAt id).blocks.size)
    (hrun : ((List.range k).forM (scheduleBlock id options)).run p = (.ok ⟨⟩, q)) :
    q.tapes.size = p.tapes.size ∧ Extends p.tree q.tree ∧ (∀ j, j ≠ id → q.tapeAt j = p.tapeAt j) ∧
      Tape.SchedulesTo q.tree n k (p.tapeAt id) (q.tapeAt id) := by
  induction k generalizing q with
  | zero =>
    cases hrun
    exact ⟨rfl, htree.extends, fun _ _ => rfl, .refl ..⟩
  | succ k ih =>
    rw [forM_range_succ] at hrun
    obtain ⟨_, m, hbefore, hlast⟩ := of_run_bind_ok hrun
    obtain ⟨hsize, hextends, hothers, hscheduled⟩ := ih (Nat.le_of_succ_le hk) hbefore
    have hrest := hscheduled.rest k le_rfl
    obtain ⟨b, hb, husage, hsize', htree', htapes⟩ :=
      of_run_scheduleBlock (n := n) (hsize ▸ hid) (hrest ▸ (hblock k hk).2) hlast
    have hlt := lt_of_lt_of_le (hblock k hk).1 hextends.size_le
    have hcharge := extends_addUsage hextends.sound (hrest ▸ hlt) husage
    rw [← htree'] at hcharge
    refine ⟨hsize'.trans hsize, hextends.trans hcharge, fun j hj => ?_, ?_⟩
    · rw [htapes, if_neg hj]
      exact hothers j hj
    · rw [htapes, if_pos rfl, htree']
      exact hscheduled.step hextends.sound hk hlt hb husage

end BuildM

/-! ## The end of the main tape -/

namespace BuildM

theorem maintains_touchLastCell (cls : RegisterClass) (top : Nat) :
    Maintains (·.Laid loops) (touchLastCell cls top) := by
  have hquiet := quiet_laid loops
  refine (hquiet.onRegisters _ _).bind fun r => Maintains.bind (fun p h => ?_) fun _ => ?_
  · exact hquiet.note h ⟨rfl, rfl, rfl, rfl, rfl, rfl⟩
  intro p h
  refine Reads.get.bind_cases (Laid · loops) h fun q hq => ?_
  cases hq
  refine (Reads.liftM _).bind_cases (Laid · loops) h fun i hi => ?_
  refine (Reads.liftM _).bind_cases (Laid · loops) h fun t ht => ?_
  obtain ⟨-, -, rfl⟩ := of_push_eq_ok (congrArg Prod.fst ht)
  refine h.modifyTape rfl fun hid => (h.tape _ hid).push ?_
  refine Instruction.plain_of_make ?_ ?_ (congrArg Prod.fst hi)
  · cases cls <;> rfl
  · cases cls <;> decide

theorem of_run_checkScopes (h : (checkScopes id).run p = (.ok ⟨⟩, q)) :
    q = p ∧ (p.tapeAt id).scopes = [] := by
  unfold checkScopes at h
  rw [run_get_bind] at h
  simp only [] at h
  split at h
  · cases h
  · rename_i hscopes
    cases h
    exact ⟨rfl, head?_eq_none_iff.1 hscopes⟩

theorem laid_declareMemory (h : p.Laid loops) (hscopes : (p.tapeAt mainTape).scopes = []) :
    (declareMemory.run p).2.Laid loops := by
  unfold declareMemory
  rw [run_get_bind]
  simp only []
  split
  · exact h
  · rw [run_bind_ok (run_modify _ p)]
    refine Maintains.forM (fun cls => maintains_touchLastCell cls _) _ _ ?_
    refine h.modifyTape (Tape.root_startBlock ..) fun hid => ?_
    have hmain := h.tape mainTape hid
    have hroot : (p.tapeAt mainTape).activeBlock.node = (p.tapeAt mainTape).root := by
      have hopen := hmain.regions
      rw [hscopes] at hopen
      exact hopen.node_eq_root
    have hnext := hmain.next "memory-usage" none
    rwa [hroot] at hnext

theorem laid_closeMain (h : p.Laid loops) (hrun : closeMain.run p = (.ok ⟨⟩, q)) : q.Laid loops := by
  obtain ⟨_, m, hcheck, hrest⟩ := of_run_bind_ok hrun
  obtain ⟨rfl, hscopes⟩ := of_run_checkScopes hcheck
  rw [run_get_bind] at hrest
  split at hrest
  · have hlaid := laid_declareMemory h hscopes
    rwa [hrest] at hlaid
  · cases hrest
    exact h

end BuildM

/-! ## Programs -/

namespace Program

open BuildM

/-- The first `k` tapes of `p` are scheduled in `q`, and what they use is charged. -/
structure Accounted (p q : Program) (k : Nat) : Prop where
  coherent : q.Coherent
  size : q.tapes.size = p.tapes.size
  tree : Extends p.tree q.tree
  done : ∀ id, id < k → Tape.Scheduled q.tree p.tapes.size (p.tapeAt id) (q.tapeAt id)
  rest : ∀ id, k ≤ id → q.tapeAt id = p.tapeAt id

variable {r : Program}

theorem Accounted.step (h : Accounted p q k) (hp : p.Laid loops) (hk : k < p.tapes.size)
    (hrun : (scheduleTape k).run q = (.ok ⟨⟩, r)) : Accounted p r (k + 1) := by
  have hsame := h.rest k le_rfl
  have hlaid := (hp.tape k hk).toFramed.grown h.tree.size_le le_rfl
  have hkq : k < q.tapes.size := h.size ▸ hk
  obtain ⟨hscopes, hblocks⟩ :=
    run_closed_of_run_scheduleTape h.coherent (hsame ▸ hlaid.building) hrun
  have hclosed : (q.modifyTape k closeTape).tapeAt k = closeTape (p.tapeAt k) := by
    rw [tapeAt_modifyTape_self hkq, hsame]
  have hothers (j : TapeId) (hj : j ≠ k) : (q.modifyTape k closeTape).tapeAt j = q.tapeAt j := by
    rw [tapeAt_modifyTape, if_neg fun h => hj h.1]
  have hcoherent := (lawful_scheduleTape k q h.coherent).ends.coherent
  rw [hrun] at hcoherent
  have hblock (b : BlockId) (hb : b < (p.tapeAt k).blocks.size) :
      ((closeTape (p.tapeAt k)).block b).node < q.tree.size ∧
        ∀ op ∈ ((closeTape (p.tapeAt k)).block b).ops, op.Direct p.tapes.size := by
    obtain ⟨-, hnode, -, hdirect⟩ := hlaid.closed_block hb
    rw [hnode]
    exact ⟨hlaid.node_lt b hb, hdirect⟩
  obtain ⟨hsize, htree, hrest, hscheduled⟩ := schedulesTo_of_run
    (p := q.modifyTape k closeTape) (n := p.tapes.size) ((size_modifyTape ..).symm ▸ hkq) h.tree.sound
    (by rwa [hclosed, Tape.size_closeTape]) le_rfl hblocks
  rw [hclosed, Tape.size_closeTape] at hscheduled
  refine ⟨hcoherent, hsize.trans ((size_modifyTape ..).trans h.size), h.tree.trans htree, ?_, ?_⟩
  · intro j hj
    rcases Nat.lt_succ_iff_lt_or_eq.1 hj with hj | rfl
    · rw [hrest j (ne_of_lt hj), hothers j (ne_of_lt hj)]
      exact (h.done j hj).mono htree
    · exact hscheduled.scheduled hlaid (hsame ▸ hscopes)
  · intro j hj
    rw [hrest j (ne_of_gt hj), hothers j (ne_of_gt hj)]
    exact h.rest j (Nat.le_of_succ_le hj)

theorem accounted_scheduleAll (hp : p.Laid loops) (hcoherent : p.Coherent)
    (hrun : scheduleAll.run p = (.ok ⟨⟩, q)) : Accounted p q p.tapes.size := by
  have hrange {k : Nat} (hk : k ≤ p.tapes.size) {m : Program}
      (hrun : ((List.range k).forM scheduleTape).run p = (.ok ⟨⟩, m)) : Accounted p m k := by
    induction k generalizing m with
    | zero =>
      cases hrun
      exact ⟨hcoherent, rfl, hp.tree.extends, fun _ hid => absurd hid (Nat.not_lt_zero _),
        fun _ _ => rfl⟩
    | succ k ih =>
      rw [forM_range_succ] at hrun
      obtain ⟨_, m', hbefore, hlast⟩ := of_run_bind_ok hrun
      exact (ih (Nat.le_of_succ_le hk) hbefore).step hp hk hlast
  unfold scheduleAll at hrun
  rw [run_get_bind] at hrun
  obtain ⟨_, m, hall, hrun⟩ := of_run_bind_ok hrun
  have haccounted := hrange le_rfl hall
  -- no tape was added
  rw [run_get_bind, haccounted.size, Nat.sub_self] at hrun
  cases hrun
  exact haccounted

end Program

end SecureTape
