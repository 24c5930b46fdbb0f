import SecureTape.Proofs.RootedPrograms

/-!
# Allocations that fail

A tape that could not be allocated cannot be allocated later either: a failed attempt leaves it
scheduled, with declarations in its last block and perhaps with slots and jumps filled in, and none
of this helps. Main statements:
1. `BuildM.exists_declarations_iff`: whether requirements can be declared depends on the resources
   alone, not on their counts.
2. `fst_assignRegisters_congr`: the walk over the registers starts from cleared slots, and it passes
   over declarations.
3. `Layout.SameJumps.exists_error`: what stands in the last block has no part in whether jumps
   resolve.
4. `BuildM.unallocatable_of_run`: after an attempt that failed, all later attempts fail.
-/

open SecureTape.Action

namespace SecureTape

open List

open Program RequirementTree

/-! ## Instructions that can be made -/

variable {b : Block} {i : Instruction} {is : List Instruction} {start : BlockId → Nat}
  {index : BlockId} {tree : RequirementTree} {arithmetic : Arithmetic} {bits : BitLengths}
  {regs : RegisterFile} {blocks blocks' : Array Block} {options : Options} {t : Tape}

namespace Instruction

variable {opcode : Opcode} {domain : FieldDomain} {size position : Nat}

theorem checkOperand_reg {cls : RegisterClass} {a : Access} {r : Reg} (howns : regs.owns r)
    (hcls : regs.classOf r = cls) (hsize : regs.sizeOf r = size) :
    checkOperand opcode size regs position (.reg cls a) (.reg r) = .ok () := by
  simp [checkOperand, checkOwner, howns, hcls, hsize]

theorem exists_make_of_make (h : opcode.layout = .fixed [.int, .int, .long]) {a b c : Int}
    (hi : make opcode .base 1 [.number a, .number b, .number c] regs = .ok i) (d : Int) :
    ∃ j, make opcode .base 1 [.number a, .number b, .number d] regs = .ok j := by
  obtain ⟨hdomain, hsize, fs, hfs, hcheck, -⟩ := of_make_eq_ok hi
  refine ⟨_, make_eq_ok hdomain hsize hfs ?_⟩
  rw [h] at hfs
  cases hfs
  obtain ⟨ha, hrest⟩ := checkOperands_cons.1 hcheck
  obtain ⟨hb, -⟩ := checkOperands_cons.1 hrest
  exact checkOperands_cons.2 ⟨ha, checkOperands_cons.2 ⟨hb, rfl⟩⟩

end Instruction

namespace BuildM

def Declarable (regs : RegisterFile) (r : Resource) : Prop :=
  ∀ n opcode values, declaration? r n = some (opcode, values) →
    ∃ i, Instruction.make opcode .base 1 (values.map .number) regs = .ok i

theorem declarable_of_make {r : Resource} {n : Count} {d : Opcode × List Int}
    (hd : declaration? r n = some d)
    (hi : Instruction.make d.1 .base 1 (d.2.map .number) regs = .ok i) : Declarable regs r := by
  intro m opcode values hm
  cases r with
  | data | input | edabit =>
    cases hd
    cases hm
    exact Instruction.exists_make_of_make rfl hi _
  | rounds | groups => cases hd

theorem exists_mapM_iff {α β : Type} {f : α → Except CompileError β} {xs : List α} :
    (∃ ys, xs.mapM f = .ok ys) ↔ ∀ x ∈ xs, ∃ y, f x = .ok y := by
  induction xs with
  | nil => exact iff_of_true ⟨[], rfl⟩ nofun
  | cons x xs ih =>
    rw [mapM_cons, forall_mem_cons, ← ih]
    constructor
    · rintro ⟨ys, h⟩
      obtain ⟨y, hy, h⟩ := of_bind_ok h
      obtain ⟨ys', hys, -⟩ := of_bind_ok h
      exact ⟨⟨y, hy⟩, ys', hys⟩
    · rintro ⟨⟨y, hy⟩, ys, hys⟩
      exact ⟨y :: ys, by rw [hy, hys]; rfl⟩

theorem exists_declarations_iff {k : Tally} : (∃ is, declarations k arithmetic bits regs = .ok is) ↔
    (∀ e ∈ k.entries, Declarable regs e.1) ∧
      ∃ is, (bitLengthDeclarations arithmetic bits).mapM (fun x =>
        Instruction.make .reqbl x.1 1 [.number x.2] regs) = .ok is := by
  have huses : (∃ is, (k.entries.filterMap fun e => declaration? e.1 e.2).mapM (fun d =>
      Instruction.make d.1 .base 1 (d.2.map .number) regs) = .ok is) ↔
      ∀ e ∈ k.entries, Declarable regs e.1 := by
    rw [exists_mapM_iff]
    constructor
    · intro h e he n opcode values hn
      have hsome : ∃ d, declaration? e.1 e.2 = some d := by
        cases hr : e.1 with
        | data | input | edabit => exact ⟨_, rfl⟩
        | rounds | groups =>
          rw [hr] at hn
          cases hn
      obtain ⟨d, hd⟩ := hsome
      obtain ⟨i, hi⟩ := h d (mem_filterMap.2 ⟨e, he, hd⟩)
      exact declarable_of_make hd hi n opcode values hn
    · intro h d hd
      obtain ⟨e, he, hsome⟩ := mem_filterMap.1 hd
      exact h e he _ _ _ hsome
  rw [← huses]
  constructor
  · rintro ⟨is, h⟩
    obtain ⟨uses, hu, h⟩ := of_bind_ok h
    obtain ⟨lengths, hl, -⟩ := of_bind_ok h
    exact ⟨⟨uses, hu⟩, lengths, hl⟩
  · rintro ⟨⟨uses, hu⟩, lengths, hl⟩
    refine ⟨uses ++ lengths, ?_⟩
    have hdeclarations : declarations k arithmetic bits regs = (do
        let uses ← (k.entries.filterMap fun e => declaration? e.1 e.2).mapM fun d =>
          Instruction.make d.1 .base 1 (d.2.map .number) regs
        let lengths ← (bitLengthDeclarations arithmetic bits).mapM fun x =>
          Instruction.make .reqbl x.1 1 [.number x.2] regs
        return uses ++ lengths) := rfl
    rw [hdeclarations, hu, hl]
    rfl

end BuildM

/-! ## Registers -/

namespace Allocator

/-- The walk over the block is the same. -/
structure SameWalk (b b' : Block) : Prop where
  exit : b'.exit = b.exit
  pool : b'.pool = b.pool
  children : b'.children = b.children
  inherited : b'.inherited = b.inherited
  code : ∀ pool,
    b'.instructions.reverse.flatMap (steps pool) = b.instructions.reverse.flatMap (steps pool)

theorem sameWalk_insertAtEnd (b : Block) (his : ∀ i ∈ is, i.accesses = []) :
    SameWalk b (b.insertAtEnd is) := by
  refine ⟨rfl, rfl, rfl, rfl, fun pool => ?_⟩
  have hskip : is.reverse.flatMap (steps pool) = [] := by
    refine flatMap_eq_nil_iff.2 fun i hi => ?_
    simp [steps, needs, Instruction.writes, Instruction.reads, his i (mem_reverse.1 hi)]
  have hcode (n : Nat) : b.instructions =
      (b.ops.take n).filterMap Op.inst? ++ (b.ops.drop n).filterMap Op.inst? := by
    rw [← filterMap_append, take_append_drop]
    rfl
  have hinserted (n : Nat) : (b.ops.take n ++ is.map Op.inst ++ b.ops.drop n).filterMap Op.inst? =
      (b.ops.take n).filterMap Op.inst? ++ is ++ (b.ops.drop n).filterMap Op.inst? := by
    rw [filterMap_append, filterMap_append, filterMap_map]
    congr 2
    exact filterMap_some
  generalize hfront : (if b.exit.isSome then b.ops.length - 1 else b.ops.length) = n
  have hlist : (b.insertAtEnd is).instructions =
      (b.ops.take n).filterMap Op.inst? ++ is ++ (b.ops.drop n).filterMap Op.inst? := by
    rw [← hinserted n, ← hfront]
    rfl
  rw [hlist, hcode n]
  simp only [reverse_append, flatMap_append, hskip, nil_append]

variable {blocks blocks' : Array Block} (hsize : blocks'.size = blocks.size)
  (h : ∀ k, SameWalk (blocks.getD k default) (blocks'.getD k default))

include hsize h

theorem walkSteps_congr (exported : List Reg) :
    walkSteps blocks' exported = walkSteps blocks exported := by
  have hbelow (fuel : Nat) (queue : List BlockId) :
      blocksBelow blocks' fuel queue = blocksBelow blocks fuel queue := by
    induction fuel generalizing queue with
    | zero => rfl
    | succ fuel ih =>
      cases queue with
      | nil => rfl
      | cons id queue => rw [blocksBelow, blocksBelow, (h id).children, ih]
  have hblock (k : Nat) : blockSteps blocks' k (blocks'.getD k default) =
      blockSteps blocks k (blocks.getD k default) := by
    simp only [blockSteps, loopSteps, hsize, hbelow, (h _).exit, (h _).pool,
      (h _).inherited, (h _).code]
  have hindex (bs : Array Block) : bs.toList.zipIdx =
      (List.range bs.size).map fun k => (bs.getD k default, k) := by
    refine ext_getElem (by simp) fun k hk hk' => ?_
    have hlt : k < bs.size := by simpa using hk
    simp [hlt]
  have hsteps (bs : Array Block) : walkSteps bs exported = if bs.size = 0 then [] else
      exported.map (.need · (bs.getD 0 default).pool) ++
        (List.range bs.size).reverse.flatMap fun k => blockSteps bs k (bs.getD k default) := by
    unfold walkSteps
    by_cases hempty : bs.size = 0
    · rw [if_pos hempty, Array.getElem?_eq_none hempty.le]
    · have hfirst : bs[0]? = some (bs.getD 0 default) := by
        simp [Nat.pos_of_ne_zero hempty]
      rw [if_neg hempty, hfirst, hindex, ← map_reverse, flatMap_map]
  rw [hsteps, hsteps, hsize, (h 0).pool]
  simp only [hblock]

end Allocator

section Assign

variable {regs' : RegisterFile}

/-- Registers are assigned anew each time: slots from an earlier attempt have no part in it. -/
theorem fst_assignRegisters_congr (hregs : regs'.clearSlots = regs.clearSlots)
    (hsize : blocks'.size = blocks.size)
    (h : ∀ k, Allocator.SameWalk (blocks.getD k default) (blocks'.getD k default)) :
    (assignRegisters options regs' blocks').1 = (assignRegisters options regs blocks).1 := by
  unfold assignRegisters allocateRegisters keepVirtual
  rw [hregs, Allocator.run_walk, Allocator.run_walk, Allocator.walkSteps_congr hsize h]

theorem clearSlots_assignRegisters (options : Options) (regs : RegisterFile) (blocks : Array Block) :
    (assignRegisters options regs blocks).2.clearSlots = regs.clearSlots := by
  unfold assignRegisters keepVirtual
  split
  · exact clearSlots_allocateRegisters regs _ blocks
  · simp only []
    split
    · exact regs.clearSlots_clearSlots
    · exact regs.clearSlots_clearSlots

end Assign

theorem Tape.sameWalk_declare (t : Tape) (his : ∀ i ∈ is, i.accesses = []) (k : BlockId) :
    Allocator.SameWalk (t.block k) ((t.declare is).block k) := by
  rw [declare, block_modifyBlock]
  split
  · rename_i hk
    rw [hk.1]
    exact Allocator.sameWalk_insertAtEnd _ his
  · exact ⟨rfl, rfl, rfl, rfl, fun _ => rfl⟩

/-! ## Layouts that cannot be resolved -/

namespace Layout

/-- The jump of the block has no target, or it is a jump to itself. -/
def Stuck (bs : List Block) (k : BlockId) (b : Block) : Prop :=
  ∃ kind target, b.exit = some ⟨kind, target⟩ ∧
    ∀ y, target = some y → starts (place 0 bs) y + 1 = startOf bs (k + 1)

variable {bs ds : List Block}

theorem resolve_eq_error_iff :
    (∃ fault, b.resolve start index = .error fault) ↔
      ∃ kind target, b.exit = some ⟨kind, target⟩ ∧ ∀ y, target = some y → start y + 1 = b.stop := by
  unfold Block.resolve
  split
  · rename_i hexit
    refine iff_of_false (by simp) ?_
    rintro ⟨kind, target, hsome, -⟩
    cases hexit.symm.trans hsome
  · rename_i kind hexit
    exact iff_of_true ⟨_, rfl⟩ ⟨kind, none, hexit, by simp⟩
  · rename_i kind y hexit
    simp only []
    split
    · rename_i hself
      refine iff_of_true ⟨_, rfl⟩ ⟨kind, some y, hexit, ?_⟩
      rintro _ ⟨⟩
      omega
    · rename_i hself
      refine iff_of_false (by simp) ?_
      rintro ⟨kind', target, hsome, hstart⟩
      cases hexit.symm.trans hsome
      have := hstart y rfl
      omega

theorem resolveFrom_eq_error_iff :
    (∃ fault, (resolveFrom start index bs).1 = .error fault) ↔
      ∃ (k : Nat) (b : Block), bs[k]? = some b ∧ ∃ fault,
        b.resolve start (index + k) = .error fault := by
  induction bs generalizing index with
  | nil => simp [resolveFrom]
  | cons c bs ih =>
    unfold resolveFrom
    split
    · rename_i fault hc
      exact iff_of_true ⟨fault, rfl⟩ ⟨0, c, rfl, fault, hc⟩
    · rename_i d hc
      refine ih.trans ⟨?_, ?_⟩
      · rintro ⟨k, b, hb, fault, hfault⟩
        exact ⟨k + 1, b, hb, fault, by rwa [add_comm k, ← add_assoc]⟩
      · rintro ⟨k, b, hb, fault, hfault⟩
        cases k with
        | zero =>
          cases hb
          cases hc.symm.trans hfault
        | succ k => exact ⟨k, b, hb, fault, by rwa [add_assoc, add_comm 1]⟩

theorem exists_stuck_iff : (∃ fault, (resolve bs).1 = .error fault) ↔
    ∃ (k : Nat) (b : Block), bs[k]? = some b ∧ Stuck bs k b := by
  unfold resolve
  rw [resolveFrom_eq_error_iff]
  constructor
  · rintro ⟨k, b, hb, hfault⟩
    rw [getElem?_place] at hb
    obtain ⟨c, hc, rfl⟩ := Option.map_eq_some_iff.1 hb
    refine ⟨k, c, hc, ?_⟩
    obtain ⟨kind, target, hexit, hself⟩ := resolve_eq_error_iff.1 hfault
    refine ⟨kind, target, hexit, fun y hy => (hself y hy).trans ?_⟩
    rw [startOf_succ hc, Block.stop, zero_add]
  · rintro ⟨k, b, hb, kind, target, hexit, hself⟩
    have hplace := getElem?_place 0 bs k
    rw [hb, Option.map_some] at hplace
    refine ⟨k, _, hplace, resolve_eq_error_iff.2 ⟨kind, target, hexit, fun y hy => ?_⟩⟩
    rw [hself y hy, startOf_succ hb, Block.stop, zero_add]

/-- The blocks have the same exits, and they have the same lengths up to the last. -/
structure SameJumps (bs ds : List Block) : Prop where
  exits : ds.map (·.exit) = bs.map (·.exit)
  lengths : ds.dropLast.map (·.ops.length) = bs.dropLast.map (·.ops.length)

theorem SameJumps.trans {es : List Block} (h : SameJumps bs ds) (h' : SameJumps ds es) :
    SameJumps bs es := ⟨h'.exits.trans h.exits, h'.lengths.trans h.lengths⟩

theorem sameJumps_resolve (bs : List Block) : SameJumps bs (resolve bs).2 := by
  have hmap {α : Type} {f : Block → α} (hf : ∀ b d, Block.Placed b d → f d = f b) :
      (resolve bs).2.map f = bs.map f := by
    have hplaced := placed_resolve bs
    generalize (resolve bs).2 = ds at hplaced
    induction hplaced with
    | nil => rfl
    | cons hb _ ih => rw [map_cons, map_cons, ih, hf _ _ hb]
  refine ⟨hmap fun b d h => h.exit, ?_⟩
  rw [map_dropLast, map_dropLast, hmap fun b d h => h.ops.length_eq.symm]

/-- What stands in the last block does not matter for jumps of the other blocks. -/
theorem SameJumps.stuck (h : SameJumps bs ds) {k : BlockId} {d : Block} (hb : bs[k]? = some b)
    (hd : ds[k]? = some d) (hlast : k + 1 < bs.length) (hstuck : Stuck bs k b) : Stuck ds k d := by
  have hlength : ds.length = bs.length := by simpa using congrArg List.length h.exits
  have hexit : d.exit = b.exit := by
    have hk := congrArg (·[k]?) h.exits
    simpa [hb, hd] using hk
  have htake {bs : List Block} {k : Nat} (hk : k < bs.length) : bs.take k = bs.dropLast.take k := by
    rw [dropLast_eq_take, take_take, Nat.min_eq_left (by omega)]
  have hstart {k : Nat} (hk : k < bs.length) : startOf ds k = startOf bs k := by
    rw [startOf, startOf, htake hk, htake (hlength.symm ▸ hk), map_take, map_take, h.lengths]
  have hstarts (y : BlockId) : starts (place 0 ds) y = starts (place 0 bs) y := by
    rcases lt_or_ge y bs.length with hy | hy
    · rw [starts_place hy, starts_place (hlength.symm ▸ hy), hstart hy]
    · rw [starts, starts, getElem?_place, getElem?_place, getElem?_eq_none hy,
        getElem?_eq_none (hlength.symm ▸ hy)]
      rfl
  obtain ⟨kind, target, hsome, hself⟩ := hstuck
  refine ⟨kind, target, hexit.trans hsome, fun y hy => ?_⟩
  rw [hstarts, hstart hlast]
  exact hself y hy

theorem SameJumps.exists_error (h : SameJumps bs ds)
    (hlast : (bs.map (·.exit)).getLast?.getD none = none)
    (herror : ∃ fault, (resolve bs).1 = .error fault) : ∃ fault, (resolve ds).1 = .error fault := by
  obtain ⟨k, b, hb, hstuck⟩ := exists_stuck_iff.1 herror
  obtain ⟨hk, -⟩ := List.getElem?_eq_some_iff.1 hb
  have hlength : ds.length = bs.length := by simpa using congrArg List.length h.exits
  have hd := List.getElem?_eq_getElem (hlength.symm ▸ hk : k < ds.length)
  refine exists_stuck_iff.2 ⟨k, _, hd, h.stuck hb hd ?_ hstuck⟩
  -- the last block has no jump
  rcases lt_or_ge (k + 1) bs.length with hlt | hge
  · exact hlt
  · obtain ⟨kind, target, hexit, -⟩ := hstuck
    have hget : bs.getLast? = some b := by
      rw [getLast?_eq_getElem?, ← hb, show bs.length - 1 = k by omega]
    rw [getLast?_map, hget] at hlast
    cases hlast.symm.trans hexit

end Layout

/-! ## The last block of a tape -/

namespace Tape

variable {calls : Prop} {t' : Tape}

/-- The last block of a scheduled tape ends without a jump. -/
def Ended (t : Tape) : Prop := t.state = .scheduled → (t.block (t.blocks.size - 1)).exit = none

theorem exit_last (t : Tape) : (t.block (t.blocks.size - 1)).exit =
    (t.blocks.toList.map (·.exit)).getLast?.getD none := by
  rw [getLast?_map, getLast?_eq_getElem?, Array.length_toList, Array.getElem?_toList, block,
    Array.getD_eq_getD_getElem?]
  cases t.blocks[t.blocks.size - 1]? with
  | none | some => rfl

theorem Edit.ended (h : Edit options calls t t') (hg : t.state = .building → t.Graph) (ht : t.Ended) :
    t'.Ended := by
  intro hs
  have hstarted {name : String} {scope : Option BlockId} {exit : Option Exit} {node : NodeId}
      (hb : t.isBuilding = true) (hs : (t.startBlock name scope exit node).2.state = .scheduled) :
      False := by
    rw [state_startBlock, of_decide_eq_true hb] at hs
    cases hs
  cases h with
  | note h =>
    rw [block, h.blocks]
    exact ht (h.state ▸ hs)
  | registers | prologue => exact ht hs
  | push hb _ _ _ => cases (of_decide_eq_true hb).symm.trans hs
  | startBlock hb | openLoop hb | endLoop hb | beginIf hb | beginElse hb | endIf hb
  | beginFunction hb | endFunction hb => exact (hstarted hb hs).elim
  | close hb _ =>
    have hgraph := hg (of_decide_eq_true hb)
    rw [size_closeTape, exit_closeTape hgraph, hgraph.wired.size, Nat.add_sub_cancel]
    exact hgraph.wired.exit_active
  | setOps hstate _ =>
    rw [size_modifyBlock, block_modifyBlock]
    split
    · rename_i hk
      rw [← hk.1]
      exact ht hstate
    · exact ht hstate
  | declare hstate _ =>
    rw [exit_declare, Tape.declare, size_modifyBlock]
    exact ht hstate
  | place hstate =>
    rw [exit_last, (Layout.sameJumps_resolve t.blocks.toList).exits, ← exit_last]
    exact ht hstate
  | allocate | encode => cases hs

theorem Edits.ended (h : Edits options calls t t') (hg : t.state = .building → t.Graph)
    (ht : t.Ended) : t'.Ended := by
  induction h with
  | refl => exact ht
  | tail h h' ih => exact h'.ended (Edits.graph h hg) ih

end Tape

/-! ## Allocations that fail -/

namespace Tape

/-- Registers of the tape cannot be assigned, or its blocks cannot be laid out. -/
def Unplaceable (options : Options) (t : Tape) : Prop :=
  (∃ e, (assignRegisters options t.regs t.blocks).1 = .error e) ∨
    ∃ fault, (Layout.resolve t.blocks.toList).1 = .error fault

theorem sameJumps_declare (t : Tape) (is : List Instruction) :
    Layout.SameJumps t.blocks.toList (t.declare is).blocks.toList := by
  have hlist : (t.declare is).blocks.toList =
      t.blocks.toList.modify (t.blocks.toList.length - 1) (·.insertAtEnd is) := by
    rw [Array.length_toList]
    exact Array.toList_modify
  rw [hlist]
  refine ⟨ext_getElem? fun k => ?_, congrArg _ (ext_getElem? fun k => ?_)⟩
  · rw [getElem?_map, getElem?_map, getElem?_modify]
    cases t.blocks.toList[k]? with
    | none => rfl
    | some b =>
      simp only [Option.map_eq_map, Option.map_some]
      split
      · rfl
      · rfl
  · rw [getElem?_dropLast, getElem?_dropLast, length_modify, getElem?_modify]
    split
    · rename_i hk
      simp only [if_neg (hk.ne')]
      exact Option.map_id'
    · rfl

theorem Unplaceable.reassigned (h : ∃ e, (assignRegisters options t.regs t.blocks).1 = .error e)
    (his : ∀ i ∈ is, i.accesses = []) :
    (Tape.declare { t with regs := (assignRegisters options t.regs t.blocks).2 } is).Unplaceable
      options := by
  have hsame : (assignRegisters options (assignRegisters options t.regs t.blocks).2
      (t.declare is).blocks).1 = (assignRegisters options t.regs t.blocks).1 :=
    fst_assignRegisters_congr (clearSlots_assignRegisters ..) (size_modifyBlock ..)
      (t.sameWalk_declare his)
  obtain ⟨e, he⟩ := h
  exact .inl ⟨e, hsame.trans he⟩

theorem Unplaceable.replaced (h : ∃ fault, (Layout.resolve t.blocks.toList).1 = .error fault)
    (hlast : (t.block (t.blocks.size - 1)).exit = none) (regs : RegisterFile) (is : List Instruction) :
    (Tape.declare { t with regs, blocks := (Layout.resolve t.blocks.toList).2.toArray } is).Unplaceable
      options :=
  .inr (((Layout.sameJumps_resolve _).trans (sameJumps_declare
    { t with regs, blocks := (Layout.resolve t.blocks.toList).2.toArray } is)).exists_error
      (t.exit_last ▸ hlast) h)

end Tape

namespace BuildM

variable {p q : Program} {id : TapeId} {requirements : Tally} {e : CompileError}

theorem of_run_assignAndPlace_error
    (h : (assignAndPlace id options t requirements).run p = (.error e, q)) :
    ((∃ e, (assignRegisters options t.regs t.blocks).1 = .error e) ∧ q = p.modifyTape id fun _ =>
      { t with regs := (assignRegisters options t.regs t.blocks).2 }) ∨
    ((∃ fault, (Layout.resolve t.blocks.toList).1 = .error fault) ∧ q = p.modifyTape id fun _ =>
      { t with
        regs := (assignRegisters options t.regs t.blocks).2
        blocks := (Layout.resolve t.blocks.toList).2.toArray }) := by
  rw [assignAndPlace, run_bind_ok (run_modify _ _)] at h
  cases hassign : (assignRegisters options t.regs t.blocks).1 with
  | error e' =>
    rw [hassign, run_bind_error (run_liftM _ _)] at h
    cases h
    exact .inl ⟨⟨_, rfl⟩, rfl⟩
  | ok usage =>
    rw [hassign, run_bind_ok (run_liftM _ _), run_bind_ok (run_modify _ _), modifyTape_modifyTape] at h
    cases hplace : (Layout.resolve t.blocks.toList).1 with
    | error fault =>
      rw [hplace] at h
      cases (run_bind_error (run_liftM _ _) _).symm.trans h
      exact .inr ⟨⟨fault, rfl⟩, rfl⟩
    | ok _ =>
      rw [hplace] at h
      cases h

theorem run_assignAndPlace_of_unplaceable (h : t.Unplaceable options) (id : TapeId)
    (requirements : Tally)
    (p : Program) : ∃ e q, (assignAndPlace id options t requirements).run p = (.error e, q) := by
  rw [assignAndPlace, run_bind_ok (run_modify _ _)]
  cases hassign : (assignRegisters options t.regs t.blocks).1 with
  | error e => exact ⟨e, _, run_bind_error (run_liftM _ _) _⟩
  | ok usage =>
    obtain ⟨e, he⟩ | ⟨fault, hfault⟩ := h
    · cases hassign.symm.trans he
    · rw [run_bind_ok (run_liftM _ _), run_bind_ok (run_modify _ _), hfault]
      exact ⟨_, _, run_bind_error (run_liftM _ _) _⟩

/-- The tape is scheduled, but it cannot be allocated with what the tree or any later one
requires. -/
structure Unallocatable (options : Options) (tree : RequirementTree) (t : Tape) : Prop where
  scheduled : t.state = .scheduled
  unplaceable : ∀ tree', Accrues tree tree' → ∀ is,
    declarations (tree'.aggregate t.root).1 options.arithmetic t.bitLengths t.regs = .ok is →
      (t.declare is).Unplaceable options

theorem run_ensureAllocated (h : (p.tapeAt id).state = .scheduled) : (ensureAllocated id).run p = (do
    let declared ← liftM (n := BuildM) (declarations (p.tree.aggregate (p.tapeAt id).root).1
      p.options.arithmetic (p.tapeAt id).bitLengths (p.tapeAt id).regs)
    assignAndPlace id p.options ((p.tapeAt id).declare declared)
      (p.tree.aggregate (p.tapeAt id).root).1).run
        { p with tree := (p.tree.aggregate (p.tapeAt id).root).2 } := by
  unfold ensureAllocated
  rw [run_get_bind, if_pos h, allocateTape_eq, run_get_bind,
    run_bind_ok (run_onTree _ _), run_get_bind, run_get_bind]
  rfl

theorem Unallocatable.run_ensureAllocated (h : Unallocatable p.options tree (p.tapeAt id))
    (hp : Rooted tree p) : ∃ e q, (ensureAllocated id).run p = (.error e, q) := by
  rw [BuildM.run_ensureAllocated h.scheduled]
  cases hdeclared : declarations (p.tree.aggregate (p.tapeAt id).root).1 p.options.arithmetic
      (p.tapeAt id).bitLengths (p.tapeAt id).regs with
  | error e => exact ⟨e, _, run_bind_error (run_liftM _ _) _⟩
  | ok is =>
    rw [run_bind_ok (run_liftM _ _)]
    exact run_assignAndPlace_of_unplaceable (h.unplaceable p.tree hp.tree is hdeclared) _ _ _

theorem declarations_of_accrues {tree' : RequirementTree} {root : NodeId} (htree : tree.Certified)
    (hroot : root < tree.size) (h : Accrues tree tree')
    (his : declarations (tree'.aggregate root).1 arithmetic bits regs = .ok is) :
    ∃ is, declarations (tree.aggregate root).1 arithmetic bits regs = .ok is := by
  obtain ⟨hentries, hbits⟩ := exists_declarations_iff.1 ⟨is, his⟩
  refine exists_declarations_iff.2 ⟨fun entry hentry => ?_, hbits⟩
  have hneeds : tree.Demands entry.1 root := (htree.mem_aggregate_iff hroot).1 ⟨entry.2, hentry⟩
  obtain ⟨n, hn⟩ := (h.certified.mem_aggregate_iff (hroot.trans_le h.size_le)).2
    (hneeds.mono h.extends_tree)
  exact hentries (entry.1, n) hn

theorem unallocatable_of_run {t₀ : RequirementTree} (hrooted : Rooted t₀ p)
    (hended : (p.tapeAt id).Ended) (h : (ensureAllocated id).run p = (.error e, q)) :
    Unallocatable p.options q.tree (q.tapeAt id) := by
  by_cases hscheduled : (p.tapeAt id).state = .scheduled
  · have hid : id < p.tapes.size := by
      by_contra hid
      rw [tapeAt_of_size_le (not_lt.1 hid)] at hscheduled
      cases hscheduled
    have htree := accrues_aggregate hrooted.certified (hrooted.tapes id).root
    rw [run_ensureAllocated hscheduled] at h
    cases hdeclared : declarations (p.tree.aggregate (p.tapeAt id).root).1 p.options.arithmetic
        (p.tapeAt id).bitLengths (p.tapeAt id).regs with
    | error e' =>
      rw [hdeclared, run_bind_error (run_liftM _ _)] at h
      cases h
      refine ⟨hscheduled, fun tree' htree' is his => ?_⟩
      obtain ⟨is', his'⟩ := declarations_of_accrues hrooted.certified (hrooted.tapes id).root
        (htree.trans htree') his
      cases hdeclared.symm.trans his'
    | ok is =>
      rw [hdeclared, run_bind_ok (run_liftM _ _)] at h
      obtain ⟨hassign, rfl⟩ | ⟨hplace, rfl⟩ := of_run_assignAndPlace_error h
      · rw [tapeAt_modifyTape, if_pos ⟨rfl, hid⟩]
        exact ⟨hscheduled, fun tree' htree' is' his' =>
          .reassigned hassign fun i hi => (forall_mem_declarations his' i hi).2⟩
      · rw [tapeAt_modifyTape, if_pos ⟨rfl, hid⟩]
        refine ⟨hscheduled, fun tree' htree' is' his' => .replaced hplace ?_ _ is'⟩
        rw [Tape.exit_declare, Tape.declare, Tape.size_modifyBlock]
        exact hended hscheduled
  · unfold ensureAllocated at h
    rw [run_get_bind, if_neg hscheduled] at h
    cases h

end BuildM

end SecureTape
