import Mathlib
import SecureTape.Proofs.Placement

/-!
# Requirements cover executions

Main statement: `BuildM.requirements_cover`, no execution of a finished program uses more than the
program says it requires.

1. `Program.Assembled.step`: what allocating one tape makes of it.
2. `Program.assembled_allocateAll`: all tapes are linked, and the main tape requires the aggregate
   of its root.
3. `Program.encoded_encodeAll`: what all tapes are encoded to.

Calls in the body of a macro are not covered (`BuildM.call_in_macro_uncharged`).
-/

open SecureTape.Action

namespace SecureTape

open List

open Program RequirementTree

/-! ## Allocation -/

variable {requirements : Tally} {t : Tape} {usage : PerClass Nat} {n : Nat} {id : TapeId}
  {m p q r s : Program} {loops : List DeclaredLoop}

namespace BuildM

theorem plain_of_mem_declarations {arithmetic : Arithmetic} {bits : BitLengths}
    {regs : RegisterFile} {is : List Instruction}
    (h : declarations requirements arithmetic bits regs = .ok is) :
    ∀ i ∈ is, i.Plain ∧ ∀ key, i.uses key = 0 := by
  have hmake {opcode : Opcode} {domain : FieldDomain} {operands : List Operand} {i : Instruction}
      (hop : opcode ∈ [.use, .useInp, .useEdabit, .reqbl])
      (h : Instruction.make opcode domain 1 operands regs = .ok i) :
      i.Plain ∧ ∀ key, i.uses key = 0 := by
    obtain ⟨-, -, -, -, -, rfl⟩ := Instruction.of_make_eq_ok h
    simp only [mem_cons, not_mem_nil, or_false] at hop
    rcases hop with rfl | rfl | rfl | rfl <;> exact ⟨⟨rfl, by simp⟩, fun _ => rfl⟩
  obtain ⟨uses, huses, h⟩ := of_bind_ok h
  obtain ⟨lengths, hlengths, h⟩ := of_bind_ok h
  cases h
  refine forall_mem_append.2 ⟨?_, ?_⟩
  · refine forall_mem_of_mapM_eq_ok (fun entry hentry i => hmake ?_) huses
    obtain ⟨⟨key, count⟩, -, hdeclared⟩ := mem_filterMap.1 hentry
    cases key <;> cases hdeclared <;> simp
  · exact forall_mem_of_mapM_eq_ok (fun entry _ i => hmake (by simp)) hlengths

theorem of_run_assignAndPlace {options : Options}
    (hrun : (assignAndPlace id options t requirements).run p = (.ok ⟨⟩, q)) :
    ∃ ds usage, Layout.resolve t.blocks.toList = (.ok ⟨⟩, ds) ∧ q = p.modifyTape id fun _ =>
      { t with
        regs := (assignRegisters options t.regs t.blocks).2
        blocks := ds.toArray
        state := .allocated usage requirements } := by
  rw [assignAndPlace, run_bind_ok (run_modify _ _)] at hrun
  obtain ⟨usage, m, husage, hrun⟩ := of_run_bind_ok hrun
  have hm := (Reads.liftM _).run_eq husage
  subst hm
  rw [run_bind_ok (run_modify _ _)] at hrun
  obtain ⟨_, m, hresolve, hrun⟩ := of_run_bind_ok hrun
  have hm := (Reads.liftM _).run_eq hresolve
  subst hm
  generalize hplaced : Layout.resolve t.blocks.toList = placed at hresolve hrun
  obtain ⟨_ | _, ds⟩ := placed
  · cases congrArg Prod.fst hresolve
  · refine ⟨ds, usage, rfl, ?_⟩
    have hq := (congrArg Prod.snd hrun).symm
    rw [run_modify, modifyTape_modifyTape, modifyTape_modifyTape] at hq
    exact hq

theorem of_run_allocateTape (hid : id < p.tapes.size)
    (hrun : (allocateTape id).run p = (.ok ⟨⟩, q)) :
    q.tapes.size = p.tapes.size ∧ (∀ j, j ≠ id → q.tapeAt j = p.tapeAt j) ∧
      ∃ is ds usage, (∀ i ∈ is, i.Plain ∧ ∀ key, i.uses key = 0) ∧
        Layout.resolve ((p.tapeAt id).declare is).blocks.toList = (.ok ⟨⟩, ds) ∧
        (q.tapeAt id).blocks = ds.toArray ∧
        (q.tapeAt id).state = .allocated usage (p.tree.aggregate (p.tapeAt id).root).1 := by
  rw [allocateTape_eq, run_get_bind, run_bind_ok (run_onTree _ p),
    run_get_bind, run_get_bind] at hrun
  obtain ⟨is, m, his, hrun⟩ := of_run_bind_ok hrun
  have hm := (Reads.liftM _).run_eq his
  subst hm
  obtain ⟨ds, usage, hresolve, rfl⟩ := of_run_assignAndPlace hrun
  refine ⟨size_modifyTape .., fun j hj => ?_, is, ds, usage,
    plain_of_mem_declarations (congrArg Prod.fst his), hresolve, ?_, ?_⟩
  · rw [tapeAt_modifyTape, if_neg fun h => hj h.1]
    rfl
  · rw [tapeAt_modifyTape, if_pos ⟨rfl, hid⟩]
  · rw [tapeAt_modifyTape, if_pos ⟨rfl, hid⟩]

end BuildM

/-! ## Assembled programs -/

namespace Tape.Laid

variable {tree : RequirementTree} {roots : TapeId → NodeId} {bound : BlockId → Count → Prop}

theorem whole (h : t.Laid tree roots n bound) (hscopes : t.scopes = []) :
    (t.flow roots).Whole tree bound t.root t.active := by
  have hopen := h.regions
  rw [hscopes] at hopen
  exact hopen.whole

theorem stays (h : t.Laid tree roots n bound) (hscopes : t.scopes = []) {b : BlockId}
    (hb : b < t.blocks.size) {kind : ExitKind} {target : Option BlockId}
    (hexit : (t.block b).exit = some ⟨kind, target⟩) : ∃ y, target = some y ∧ y < t.blocks.size := by
  rw [h.size] at hb ⊢
  obtain ⟨y, htarget, hy, -⟩ := (h.whole hscopes).stays (Nat.le_of_lt_succ hb) kind target hexit
  exact ⟨y, htarget, Nat.lt_succ_of_le hy⟩

end Tape.Laid

namespace Program

open BuildM

/-- The first `k` tapes of `p`, which are scheduled in `s`, are allocated in `m`. -/
structure Assembled (p s m : Program) (k : Nat) : Prop where
  size : m.tapes.size = p.tapes.size
  linked : ∀ id, id < k → (p.tapeAt id).Linked s.tree p.tapes.size (m.tapeAt id)
  allocated : ∀ id, id < k → ∃ usage requirements, (m.tapeAt id).state = .allocated usage requirements
  rest : ∀ id, k ≤ id → m.tapeAt id = s.tapeAt id
  first : k = 0 → m.tree = s.tree
  main : 0 < k → ∃ usage, (m.tapeAt mainTape).state =
    .allocated usage (s.tree.aggregate (p.rootOf mainTape)).1

variable {k : Nat}

theorem Assembled.step (h : Assembled p s m k) (hp : p.Laid loops) (hs : Accounted p s p.tapes.size)
    (hk : k < p.tapes.size) (hrun : (ensureAllocated k).run m = (.ok ⟨⟩, r)) :
    Assembled p s r (k + 1) := by
  have hlaid := hp.tape k hk
  have hscheduled := hs.done k hk
  have hsame := h.rest k le_rfl
  unfold ensureAllocated at hrun
  rw [run_get_bind, hsame, if_pos hscheduled.state] at hrun
  obtain ⟨hsize, hothers, is, ds, usage, hplain, hresolve, hblocks, hstate⟩ :=
    of_run_allocateTape (h.size.symm ▸ hk) hrun
  rw [hsame] at hresolve hstate
  have hlast : ((p.tapeAt k).block ((p.tapeAt k).blocks.size - 1)).exit = none := by
    rw [hlaid.size]
    exact hlaid.exit_eq _ hlaid.opened
  refine ⟨hsize.trans h.size, ?_, ?_, ?_, fun h => absurd h (Nat.succ_ne_zero k), fun _ => ?_⟩
  · intro j hj
    rcases Nat.lt_succ_iff_lt_or_eq.1 hj with hj | rfl
    · rw [hothers j (ne_of_lt hj)]
      exact h.linked j hj
    · refine hscheduled.linked hlast (fun b hb kind y hexit => ?_) hplain hresolve hblocks
      obtain ⟨y', htarget, hy⟩ := hlaid.stays hscheduled.scopes hb hexit
      cases htarget
      exact hy
  · intro j hj
    rcases Nat.lt_succ_iff_lt_or_eq.1 hj with hj | rfl
    · rw [hothers j (ne_of_lt hj)]
      exact h.allocated j hj
    · exact ⟨_, _, hstate⟩
  · intro j hj
    rw [hothers j (ne_of_gt hj)]
    exact h.rest j (Nat.le_of_succ_le hj)
  · cases k with
    | zero =>
      rw [h.first rfl, hscheduled.root] at hstate
      exact ⟨usage, hstate⟩
    | succ k =>
      rw [hothers mainTape (Nat.succ_ne_zero k).symm]
      exact h.main (Nat.succ_pos k)

theorem assembled_allocateAll (hp : p.Laid loops) (hs : Accounted p s p.tapes.size)
    (hk : k ≤ p.tapes.size) (hrun : ((List.range k).forM ensureAllocated).run s = (.ok ⟨⟩, r)) :
    Assembled p s r k := by
  induction k generalizing r with
  | zero =>
    cases hrun
    exact ⟨hs.size, fun _ h => absurd h (Nat.not_lt_zero _), fun _ h => absurd h (Nat.not_lt_zero _),
      fun _ _ => rfl, fun _ => rfl, fun h => absurd h (lt_irrefl _)⟩
  | succ k ih =>
    rw [forM_range_succ] at hrun
    obtain ⟨_, m, hbefore, hlast⟩ := of_run_bind_ok hrun
    exact (ih (Nat.le_of_succ_le hk) hbefore).step hp hs hk hlast

/-! ## Encoded programs -/

/-- The first `k` tapes of `r` are encoded in `m`. -/
structure Encoded (r m : Program) (k : Nat) : Prop where
  size : m.tapes.size = r.tapes.size
  regs : ∀ id, (m.tapeAt id).regs = (r.tapeAt id).regs
  done : ∀ id, id < k → ∃ usage requirements result,
    (r.tapeAt id).state = .allocated usage requirements ∧ (m.tapeAt id).state = .finished result ∧
      result.requirements = requirements ∧
      result.bytecode = (r.tapeAt id).code.flatMap (·.encode (physicalOf r))
  rest : ∀ id, k ≤ id → m.tapeAt id = r.tapeAt id

theorem Encoded.step (h : Encoded r m k) (hk : k < r.tapes.size)
    (hstate : (r.tapeAt k).state = .allocated usage requirements)
    (hrun : (encodeTape k).run m = (.ok ⟨⟩, q)) : Encoded r q (k + 1) := by
  have hsame := h.rest k le_rfl
  have hphysical : physicalOf m = physicalOf r := by
    funext reg
    rw [physicalOf, h.regs, physicalOf]
  unfold encodeTape at hrun
  rw [run_get_bind] at hrun
  simp only [hsame, hstate, hphysical] at hrun
  cases hrun
  refine ⟨(size_modifyTape ..).trans h.size, fun j => ?_, fun j hj => ?_, fun j hj => ?_⟩
  · rw [tapeAt_modifyTape]
    split
    · rename_i hjk
      rw [hjk.1]
      exact h.regs k
    · exact h.regs j
  · rw [tapeAt_modifyTape]
    rcases Nat.lt_succ_iff_lt_or_eq.1 hj with hj | rfl
    · rw [if_neg fun hjk => ne_of_lt hj hjk.1]
      exact h.done j hj
    · rw [if_pos ⟨rfl, h.size.symm ▸ hk⟩]
      exact ⟨usage, requirements, _, hstate, rfl, rfl, rfl⟩
  · rw [tapeAt_modifyTape, if_neg fun hjk => ne_of_gt hj hjk.1]
    exact h.rest j (Nat.le_of_succ_le hj)

theorem encoded_encodeAll
    (hall : ∀ id, id < r.tapes.size → ∃ usage requirements,
      (r.tapeAt id).state = .allocated usage requirements)
    (hk : k ≤ r.tapes.size) (hrun : ((List.range k).forM encodeTape).run r = (.ok ⟨⟩, q)) :
    Encoded r q k := by
  induction k generalizing q with
  | zero =>
    cases hrun
    exact ⟨rfl, fun _ => rfl, fun _ h => absurd h (Nat.not_lt_zero _), fun _ _ => rfl⟩
  | succ k ih =>
    rw [forM_range_succ] at hrun
    obtain ⟨_, m, hbefore, hlast⟩ := of_run_bind_ok hrun
    obtain ⟨usage, requirements, hstate⟩ := hall k hk
    exact (ih (Nat.le_of_succ_le hk) hbefore).step hk hstate hlast

end Program

namespace BuildM

def assemble : BuildM Unit := do
  closeMain
  scheduleAll
  (List.range (← get).tapes.size).forM ensureAllocated

theorem exists_of_run_finish {c : CompiledProgram} (h : finish.run p = (.ok c, q)) :
    ∃ r, assemble.run p = (.ok ⟨⟩, r) ∧
      ((List.range r.tapes.size).forM encodeTape).run r = (.ok ⟨⟩, q) ∧
      c.requirements = (c.tapes.head?.map (·.requirements)).getD .empty := by
  obtain ⟨_, m₁, hclose, h⟩ := of_run_bind_ok h
  obtain ⟨_, m₂, hschedule, h⟩ := of_run_bind_ok h
  rw [run_bind_ok (run_get m₂)] at h
  obtain ⟨_, r, hallocate, h⟩ := of_run_bind_ok h
  rw [run_bind_ok (run_get r)] at h
  obtain ⟨_, m₃, hencode, h⟩ := of_run_bind_ok h
  rw [run_bind_ok (run_get m₃)] at h
  obtain ⟨tapes, m₄, hcollect, h⟩ := of_run_bind_ok h
  have hsame := reads_collect.run_eq hcollect
  cases h
  refine ⟨r, ?_, hsame ▸ hencode, rfl⟩
  rw [assemble, run_bind_ok hclose, run_bind_ok hschedule, run_bind_ok (run_get m₂)]
  exact hallocate

theorem exists_of_run_assemble (hp : p.Laid loops) (hcoherent : p.Coherent)
    (h : assemble.run p = (.ok ⟨⟩, r)) :
    ∃ m s, m.Laid loops ∧ Extends m.tree s.tree ∧ Assembled m s r r.tapes.size := by
  obtain ⟨_, m, hclose, h⟩ := of_run_bind_ok h
  obtain ⟨_, s, hschedule, h⟩ := of_run_bind_ok h
  rw [run_get_bind] at h
  have hm := laid_closeMain hp hclose
  have hcoherent' : m.Coherent := by
    have hends := (lawful_closeMain p hcoherent).ends.coherent
    rwa [hclose] at hends
  have haccounted := accounted_scheduleAll hm hcoherent' hschedule
  have hassembled := assembled_allocateAll hm haccounted haccounted.size.le h
  refine ⟨m, s, hm, haccounted.tree, ?_⟩
  rwa [hassembled.size, ← haccounted.size]

end BuildM

/-! ## Executions -/

namespace Program

open BuildM

/-- On the way through the code of a tape no loop runs more often than declared when it was
opened. -/
def Admits (r : Program) (loops : List DeclaredLoop) (id : TapeId) (path : List Nat) : Prop :=
  ∀ loop ∈ loops, loop.tape = id → ∀ b cond,
    ((r.tapeAt id).block b).exit = some ⟨.ifNonZero cond, some loop.head⟩ →
      Repeats loop.times.value (((r.tapeAt id).block b).stop - 1) 0 path

theorem Assembled.cost_le (h : Assembled m s r m.tapes.size) (hm : m.Laid loops)
    (htree : Extends m.tree s.tree) (key : Resource) (id : TapeId) (path : List Nat)
    (hwalk : Walks (r.tapeAt id).code 0 path) (hadmits : r.Admits loops id path) :
    (path.map (costAt key (fun f => s.tree.least key (m.rootOf f)) (r.tapeAt id).code)).sum ≤
      s.tree.least key (m.rootOf id) := by
  by_cases hid : id < m.tapes.size
  · have hlaid := (hm.onTree htree).tape id hid
    have hlinked := h.linked id hid
    have hplaces := hlinked.places m.rootOf fun b hb kind target hexit =>
      hlaid.stays hlinked.scopes hb hexit
    have hcharged := hlinked.charged_flow m.rootOf key
    have hsize := (hm.tape id hid).size
    rw [hsize] at hplaces hcharged
    refine hplaces.cost_le (hlaid.whole hlinked.scopes) hcharged hwalk
      fun e head n he hbound hclose => ?_
    have he' : e < (m.tapeAt id).blocks.size := hsize ▸ Nat.lt_succ_of_le he
    obtain ⟨cond, hexit⟩ := hclose
    have hblock := hlinked.block e he'
    have hrepeats := hadmits ⟨id, head, n⟩ hbound rfl e cond (hblock.exit.trans hexit)
    rwa [Block.stop, hblock.offset, ← hlinked.startOf_succ he'] at hrepeats
  · have hempty : (r.tapeAt id).code = [] := by
      rw [tapeAt_of_size_le (h.size.symm ▸ not_lt.1 hid)]
      rfl
    rw [hempty] at hwalk
    cases path with
    | nil => exact zero_le
    | cons x path =>
      obtain ⟨-, i, next, hi, -⟩ := hwalk
      cases hi

theorem Assembled.runs_le (h : Assembled m s r r.tapes.size) (hm : m.Laid loops)
    (htree : Extends m.tree s.tree) {key : Resource} {path : List Nat}
    (hruns : Runs (fun id => (r.tapeAt id).code) (r.Admits loops) key mainTape 0 path n)
    (hadmits : r.Admits loops mainTape path)
    (hstate : (r.tapeAt mainTape).state = .allocated usage requirements) :
    (n : ℕ∞) ≤ (requirements.get key).value := by
  have hmain : mainTape < m.tapes.size := Nat.zero_lt_of_lt hm.current_lt
  rw [h.size] at h
  have hcost := h.cost_le hm htree key
  obtain ⟨hwalk, hle⟩ := Runs.le_cost hcost hruns
  obtain ⟨usage', hrequires⟩ := h.main hmain
  cases hstate.symm.trans hrequires
  calc (n : ℕ∞)
    _ ≤ _ := hle
    _ ≤ s.tree.least key (m.rootOf mainTape) := hcost mainTape path hwalk hadmits
    _ ≤ _ := least_le_value_aggregate htree.sound.wellFormed htree.sound.kept
      (lt_of_lt_of_le (hm.tape mainTape hmain).root_lt htree.size_le)

end Program

namespace BuildM

variable {c : CompiledProgram}

theorem getElem?_tapes_iff {result : FinishedTape} (h : finish.run p = (.ok c, q)) :
    c.tapes[id]? = some result ↔ id < q.tapes.size ∧ (q.tapeAt id).state = .finished result := by
  obtain ⟨-, hall⟩ := of_run_finish h
  have hlength : q.tapes.size = c.tapes.length := hall.length_eq
  have hfinished (hid : id < q.tapes.size) :
      (q.tapeAt id).state = .finished (c.tapes.get ⟨id, hlength ▸ hid⟩) := by
    rw [tapeAt, Array.getD_eq_getD_getElem?, Array.getElem?_eq_getElem hid]
    exact hall.get hid (hlength ▸ hid)
  constructor
  · intro hresult
    obtain ⟨hlt, rfl⟩ := List.getElem?_eq_some_iff.1 hresult
    exact ⟨hlength ▸ hlt, hfinished (hlength ▸ hlt)⟩
  · rintro ⟨hid, hstate⟩
    cases (hfinished hid).symm.trans hstate
    exact getElem?_eq_getElem _

/-- No execution of a finished program uses more of a resource than the program says it requires:
not if calls run the code of the callee, conditions come out either way, and no loop runs more often
than declared. The tapes of the finished program are the encoded code that is run. -/
theorem requirements_cover (hp : p.Structured loops) (h : finish.run p = (.ok c, q)) :
    ∃ r, assemble.run p = (.ok ⟨⟩, r) ∧
      c.tapes.map (·.bytecode) =
        r.tapes.toList.map (fun t => t.code.flatMap (·.encode (physicalOf r))) ∧
      ∀ key path n, Runs (fun id => (r.tapeAt id).code) (r.Admits loops) key mainTape 0 path n →
        r.Admits loops mainTape path → (n : ℕ∞) ≤ (c.requirements.get key).value := by
  obtain ⟨r, hassemble, hencode, hrequirements⟩ := exists_of_run_finish h
  obtain ⟨m, s, hm, htree, hassembled⟩ := exists_of_run_assemble hp.laid hp.coherent hassemble
  have hencoded := encoded_encodeAll hassembled.allocated le_rfl hencode
  refine ⟨r, hassemble, ?_, fun key path n hruns hadmits => ?_⟩
  · refine ext_getElem? fun id => ?_
    rw [getElem?_map, getElem?_map, Array.getElem?_toList]
    by_cases hid : id < r.tapes.size
    · obtain ⟨-, -, result, -, hresult, -, hbytecode⟩ := hencoded.done id hid
      rw [(getElem?_tapes_iff h).2 ⟨hencoded.size.symm ▸ hid, hresult⟩, Option.map_some, hbytecode,
        tapeAt, Array.getD_eq_getD_getElem?, Array.getElem?_eq_getElem hid]
      rfl
    · have hlength := (of_run_finish h).2.length_eq
      rw [Array.length_toList, hencoded.size] at hlength
      rw [getElem?_eq_none (hlength ▸ not_lt.1 hid),
        Array.getElem?_eq_none (not_lt.1 hid)]
      rfl
  · have hmain : mainTape < r.tapes.size := hassembled.size ▸ Nat.zero_lt_of_lt hm.current_lt
    obtain ⟨usage, requirements, result, hstate, hresult, rfl, -⟩ := hencoded.done mainTape hmain
    have hhead := (getElem?_tapes_iff h).2 ⟨hencoded.size.symm ▸ hmain, hresult⟩
    rw [hrequirements, head?_eq_getElem?, show c.tapes[0]? = _ from hhead]
    exact hassembled.runs_le hm htree hruns hadmits hstate

/-! Two rounds of a loop in which a function is called. -/

def takeBit : BuildM Unit := do
  let r ← newRegister .secret
  emitRegs .bit [r]

/-- A program with a function that takes a random bit, and a register for a condition. -/
def bitFunction : Program :=
  let added := ((addTape "bit" .function true).run (builtBy (pure ()))).2
  let filled := (takeBit.run { added with current := 1 }).2
  (newInteger.run { filled with current := mainTape }).2

def bitLoop : Program :=
  let body : BuildM Unit := do
    callTape 1 []
    endLoop ⟨mainTape, 0⟩
  (body.run ((openLoop (.finite 2) none).run bitFunction).2).2

theorem structured_bitLoop : bitLoop.Structured [⟨mainTape, 1, .finite 2⟩] := by
  have hadded : ((addTape "bit" .function true).run (builtBy (pure ()))).2.Structured [] :=
    .addTape (.new (show Program.new "main" {} = .ok _ from rfl)) ..
  have hbit : takeBit.Straight :=
    .bind (.newRegister .secret) fun r => .emitRegs rfl (by decide) [r]
  have hfilled := (hadded.turnTo (show 1 < _ by decide +kernel)).call hbit
  have hfunction : bitFunction.Structured [] :=
    (hfilled.turnTo (show mainTape < _ by decide +kernel)).call .newInteger
  have hopen : ((openLoop (.finite 2) none).run bitFunction).1 = .ok ⟨⟩ := by decide +kernel
  exact (hfunction.openLoop (by decide) (run_eq_of_fst hopen)).call
    (.bind (.callTape 1 []) fun _ => .endLoop ⟨mainTape, 0⟩)

def bitLoopCode : TapeId → List Instruction
  | 0 => [⟨.callTape, .base, 1, [.number 1, .number 0]⟩,
      ⟨.jmpnz, .base, 1, [.reg ⟨0, 0⟩, .number (-2)]⟩,
      ⟨.use, .base, 1, [.number 0, .number 2, .number 2]⟩]
  | 1 => [⟨.bit, .base, 1, [.reg ⟨1, 0⟩]⟩, ⟨.use, .base, 1, [.number 0, .number 2, .number 1]⟩]
  | _ => []

theorem code_bitLoop (id : TapeId) : ((assemble.run bitLoop).2.tapeAt id).code = bitLoopCode id := by
  rcases lt_or_ge id 2 with hid | hid
  · have hcode : ∀ id < 2, ((assemble.run bitLoop).2.tapeAt id).code = bitLoopCode id := by
      decide +kernel
    exact hcode id hid
  · have hsize : (assemble.run bitLoop).2.tapes.size = 2 := by decide +kernel
    rw [tapeAt_of_size_le (hsize.symm ▸ hid)]
    obtain ⟨n, rfl⟩ := Nat.exists_eq_add_of_le' hid
    rfl

/-- In each of the two rounds a bit is taken. -/
theorem runs_bitLoopCode (admits : TapeId → List Nat → Prop) (h : admits 1 [0, 1]) :
    Runs bitLoopCode admits (.data .base .bit) mainTape 0 [0, 1, 0, 1, 2] 2 := by
  have hstep {id : TapeId} {pc next n : Nat} {path : List Nat} (i : Instruction)
      (hi : (bitLoopCode id)[pc]? = some i) (hop : i.opcode ≠ .callTape) (hnext : i.Follows pc next)
      (hrest : Runs bitLoopCode admits (.data .base .bit) id next path n) :=
    Runs.step hi hop hnext hrest
  have hbody : Runs bitLoopCode admits (.data .base .bit) 1 0 [0, 1] 1 :=
    hstep ⟨.bit, .base, 1, [.reg ⟨1, 0⟩]⟩ rfl (by decide) rfl
      (hstep ⟨.use, .base, 1, [.number 0, .number 2, .number 1]⟩ rfl (by decide) rfl (.done 1))
  have hround {path : List Nat} {n : Nat}
      (hrest : Runs bitLoopCode admits (.data .base .bit) mainTape 1 path n) :=
    Runs.call (show (bitLoopCode mainTape)[0]? =
      some ⟨.callTape, .base, 1, [.number 1, .number 0]⟩ from rfl)
      rfl rfl hbody h hrest
  have hleave := hstep ⟨.jmpnz, .base, 1, [.reg ⟨0, 0⟩, .number (-2)]⟩ rfl (by decide)
    (show Instruction.Follows _ 1 2 from .inl ⟨by decide, rfl⟩)
    (hstep ⟨.use, .base, 1, [.number 0, .number 2, .number 2]⟩ rfl (by decide) rfl (.done mainTape))
  exact hround (hstep ⟨.jmpnz, .base, 1, [.reg ⟨0, 0⟩, .number (-2)]⟩ rfl (by decide)
    (.inr ⟨-2, rfl, rfl⟩) (hround hleave))

theorem admits_bitLoop : (assemble.run bitLoop).2.Admits [⟨mainTape, 1, .finite 2⟩] mainTape
    [0, 1, 0, 1, 2] := by
  intro loop hloop _ b cond hexit
  obtain rfl := mem_singleton.1 hloop
  have hone : b = 1 := by
    have hblocks :
        ∀ b, b < 3 → b ≠ 1 → (((assemble.run bitLoop).2.tapeAt mainTape).block b).exit = none := by
      decide +kernel
    by_contra hb
    rcases lt_or_ge b 3 with hlt | hge
    · cases hexit.symm.trans (hblocks b hlt hb)
    · have hsize : ((assemble.run bitLoop).2.tapeAt mainTape).blocks.size = 3 := by decide +kernel
      rw [Tape.block_of_size_le (hsize.symm ▸ hge)] at hexit
      cases hexit
  subst hone
  have hstop : (((assemble.run bitLoop).2.tapeAt mainTape).block 1).stop = 2 := by decide +kernel
  rw [hstop]
  simpa [Repeats, Count.value] using one_add_one_eq_two.le

theorem requirements_cover_two_bits : bitLoop.Structured [⟨mainTape, 1, .finite 2⟩] ∧
    ∃ c q r, finish.run bitLoop = (.ok c, q) ∧ assemble.run bitLoop = (.ok ⟨⟩, r) ∧
      c.requirements.get (.data .base .bit) = .finite 2 ∧
      Runs (fun id => (r.tapeAt id).code) (r.Admits [⟨mainTape, 1, .finite 2⟩]) (.data .base .bit)
        mainTape 0 [0, 1, 0, 1, 2] 2 ∧
      r.Admits [⟨mainTape, 1, .finite 2⟩] mainTape [0, 1, 0, 1, 2] ∧
      (2 : ℕ∞) ≤ (c.requirements.get (.data .base .bit)).value := by
  obtain ⟨c, q, hrun, hbits⟩ := exists_run_ok finish bitLoop
    (·.requirements.get (.data .base .bit) = .finite 2) (by decide +kernel)
  obtain ⟨r, hassemble, -, hcover⟩ := requirements_cover structured_bitLoop hrun
  have hr : r = (assemble.run bitLoop).2 := by rw [hassemble]
  have hruns := runs_bitLoopCode (r.Admits [⟨mainTape, 1, .finite 2⟩])
    (fun loop hloop htape => by
      obtain rfl := mem_singleton.1 hloop
      cases htape)
  have hcode : (fun id => (r.tapeAt id).code) = bitLoopCode := by
    rw [hr]
    exact funext code_bitLoop
  rw [← hcode] at hruns
  have hadmits := admits_bitLoop
  rw [← hr] at hadmits
  exact ⟨structured_bitLoop, c, q, r, hrun, hassemble, hbits, hruns, hadmits,
    hcover _ _ _ hruns hadmits⟩

/-! ## Calls in macros -/

/-- A macro calls a tape that draws a bit. -/
def callInMacro : BuildM Unit := do
  let (callee, _) ← newFunction "f" do
    let r ← newVector .secret 1
    randomBit r
    storeMemory r 0
  modify ({ · with policy := .inlineAlways })
  callMacro ⟨"m", [], [], fun _ => callTape callee []⟩ []

/-- The call of a tape in a macro body is not charged to the tape that calls the macro: what the
called tape needs is known only after the template is made. -/
theorem call_in_macro_uncharged :
    let call : Instruction := ⟨.callTape, .base, 1, [.number 1, .number 0]⟩
    ((builtBy callInMacro).tapeAt 0).blocks.size = 1 ∧
      ∃ c, (finish.run (builtBy callInMacro)).1 = .ok c ∧
        c.tapes.head?.map (·.bytecode) = some (call.encode fun _ => 0) ∧
        c.tapes.map (·.requirements.get (.data .base .bit)) = [.finite 0, .finite 1] := by
  intro call
  obtain ⟨c, q, hrun, hc⟩ := exists_run_ok finish (builtBy callInMacro) (fun c =>
    c.tapes.head?.map (·.bytecode) = some (call.encode fun _ => 0) ∧
      c.tapes.map (·.requirements.get (.data .base .bit)) = [.finite 0, .finite 1]) (by decide +kernel)
  exact ⟨by decide +kernel, c, congrArg Prod.fst hrun, hc⟩

/-! ## Declarations in macros -/

/-- A macro finalizes a function, for which a tape is made for batches. The macro is rejected and
the tape is dropped, but the function still calls its number. A later template has that number while
it is built, and is allocated when the function is finalized again. -/
def finalizeInMacros : BuildM Unit := do
  let draw : MacroBody := ⟨"draw", [], [(.secret, .write)], fun args => args.forM randomBit⟩
  let (callee, _) ← newFunction "f" do
    callMacro draw [← newVector .secret 1]
  modify ({ · with policy := .callAlways })
  let _ ← attempt (callMacro ⟨"early", [], [], fun _ => finalizeTape callee⟩ [])
  let again : MacroBody := ⟨"again", [], [], fun _ => do
    randomBit (← newVector .secret 1)
    finalizeTape callee⟩
  callMacro ⟨"outer", [], [], fun _ => callMacro again []⟩ []
  modify ({ · with policy := .inlineAlways })

/-- The declarations of the template become part of the code of the main tape: two instructions
declare one resource, and only the second says how much of it the tape requires. -/
theorem template_declares_again :
    let bit : Instruction := ⟨.bit, .base, 1, [.reg ⟨0, 0⟩]⟩
    let use (n : Int) : Instruction := ⟨.use, .base, 1, [.number 0, .number 2, .number n]⟩
    let p := builtBy finalizeInMacros
    p.policy = .inlineAlways ∧ ((finishedTape (p.tapeAt 1)).run p).1.toBool = true ∧
      (finish.run p).1.toOption.bind
        (fun c => c.tapes.head?.map fun t => (t.bytecode, t.requirements.entries)) =
        some ([bit, use 1, use 2].flatMap (·.encode fun _ => 0), [(.data .base .bit, .finite 2)]) := by
  decide +kernel

/-! ## Bit lengths -/

/-- The main tape requires an extension length of 40 bits, calls a function that requires 60 bits,
and then a macro that requires 80. -/
def requireThrice : BuildM (List Nat) := do
  let length : BuildM Nat := do return (← get).currentTape.bitLengths.extension
  let (callee, _) ← newFunction "f" (requireBitLength 60 .extension)
  requireBitLength 40 .extension
  let first ← length
  callTape callee []
  let second ← length
  callMacro ⟨"m", [], [], fun _ => requireBitLength 80 .extension⟩ []
  return [first, second, ← length]

/-- No call fails, and the extension length of the main tape changes twice after it was set. What
was required first is now refused. -/
theorem extension_length_changes :
    let p := builtBy requireThrice
    (Program.new "main" {}).toOption.bind (fun p => (requireThrice.run p).1.toOption) =
    some [40, 60, 80] ∧
      ((requireBitLength 40 .extension).run p).1.toBool = false := by
  decide +kernel

end BuildM

end SecureTape
