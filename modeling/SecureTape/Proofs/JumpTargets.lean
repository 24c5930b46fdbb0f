import SecureTape.Proofs.ClosedTapes
import SecureTape.Proofs.SparedTapes

/-!
# Where jumps land

Main statement: `BuildM.jumps_land`, the jump at the end of every block of a tape that is encoded
goes to the start of the block that its exit names.

1. `Tape.Ends`: in a scheduled tape every block with an exit ends with the jump for it.
2. `Tape.Lands`: in an allocated tape the offsets of these jumps lead to the targets.
3. `Tape.Tidy`: what is known of a tape in each stage; `BuildM.prepares_carries`: scheduling and
   allocation keep it; `BuildM.sane_of_run_encodeTape`: so does encoding.
4. `BuildM.Readies`: the tape that is encoded is the one that was allocated at a moment of building.
5. `Tape.Lands.decodes`: what is read back from the bytecode of such a tape.
-/

open SecureTape.Action

namespace SecureTape

open List

open Program

/-! ## Layout -/

variable {ds : List Block} {k : BlockId} {b : Block} {e : Exit} {op : Op} {is : List Instruction}
  {id : TapeId} {options : MergeOptions} {p q : Program} {t t' : Tape}
  {exits : TapeId → Option (BlockId → Option Exit)} {moments : TapeId → Program → Bool}
  {source : TapeId → FinishedTape → Tape → Prop}

theorem Layout.start_ne_of_resolve {bs : List Block} (h : resolve bs = (.ok ⟨⟩, ds)) {y : BlockId}
    (hb : bs[k]? = some b) {kind : ExitKind} (hexit : b.exit = some ⟨kind, some y⟩)
    (hy : y < bs.length) : startOf bs y + 1 ≠ startOf bs (k + 1) := by
  have hplace := getElem?_place 0 bs k
  rw [hb, zero_add] at hplace
  obtain ⟨d, -, hresolve⟩ := of_resolveFrom h k _ hplace
  unfold Block.resolve at hresolve
  simp only [hexit, Block.stop, starts_place hy] at hresolve
  split at hresolve
  · cases hresolve
  · rename_i hne
    rw [startOf_succ hb]
    omega

namespace Block

theorem jumps_of_some (h : b.exit = some e) : b.jumps = [.inst e.kind.jump] := by
  rw [jumps, h]
  rfl

theorem ops_insertAtEnd_of_some (h : b.exit = some e) {body : List Op} (hops : b.ops = body ++ [op])
    (is : List Instruction) : (b.insertAtEnd is).ops = body ++ is.map .inst ++ [op] := by
  simp [insertAtEnd, h, hops]

theorem mem_ops_insertAtEnd (h : op ∈ (b.insertAtEnd is).ops) : op ∈ b.ops ∨ ∃ i, op = .inst i := by
  simp only [insertAtEnd, mem_append, mem_map] at h
  rcases h with (h | ⟨i, -, rfl⟩) | h
  · exact .inl (mem_of_mem_take h)
  · exact .inr ⟨i, rfl⟩
  · exact .inl (mem_of_mem_drop h)

end Block

/-! ## Scheduled and allocated tapes -/

namespace Tape

variable {r : Tape}

/-- A scheduled tape: there are only instructions in it, and every block with an exit ends with the
jump for it. -/
structure Ends (t : Tape) : Prop where
  inst : ∀ k, ∀ op ∈ (t.block k).ops, op.inst?.isSome = true
  target : ∀ k e, (t.block k).exit = some e → ∃ y, e.target = some y ∧ y < t.blocks.size
  jump : ∀ k e, (t.block k).exit = some e → ∃ body, (t.block k).ops = body ++ [.inst e.kind.jump]

/-- An allocated tape: the jump at the end of a block leads to the first instruction of the target
of its exit, which is not the jump itself. -/
structure Lands (t : Tape) : Prop where
  inst : ∀ k, ∀ op ∈ (t.block k).ops, op.inst?.isSome = true
  jump : ∀ k e, (t.block k).exit = some e → ∃ y body, e.target = some y ∧ y < t.blocks.size ∧
    (t.block k).ops =
      body ++ [.inst (e.kind.jump.withJumpOffset ((t.startOf y : Int) - t.startOf (k + 1)))] ∧
    t.startOf y + 1 ≠ t.startOf (k + 1)

theorem Ends.congr (h : t.Ends) (hblocks : t'.blocks = t.blocks) : t'.Ends := by
  have hblock : t'.block = t.block := by unfold block; rw [hblocks]
  exact ⟨hblock ▸ h.inst, hblock ▸ hblocks ▸ h.target, hblock ▸ h.jump⟩

theorem Lands.congr (h : t.Lands) (hblocks : t'.blocks = t.blocks) : t'.Lands := by
  have hblock : t'.block = t.block := by unfold block; rw [hblocks]
  have hstart : t'.startOf = t.startOf := by unfold startOf; rw [hblocks]
  exact ⟨hblock ▸ h.inst, hblock ▸ hstart ▸ hblocks ▸ h.jump⟩

theorem exit_declare (t : Tape) (is : List Instruction) (k : BlockId) :
    ((t.declare is).block k).exit = (t.block k).exit := by
  rw [declare, block_modifyBlock]
  split
  · rename_i hk
    rw [hk.1]
    rfl
  · rfl

theorem Ends.declare (h : t.Ends) (is : List Instruction) : (t.declare is).Ends := by
  refine ⟨fun k op hop => ?_, fun k e he => ?_, fun k e he => ?_⟩
  · rw [Tape.declare, block_modifyBlock] at hop
    split at hop
    · rcases Block.mem_ops_insertAtEnd hop with hop | ⟨i, rfl⟩
      · exact h.inst _ op hop
      · rfl
    · exact h.inst k op hop
  · rw [exit_declare] at he
    obtain ⟨y, hy, hlt⟩ := h.target k e he
    exact ⟨y, hy, (size_modifyBlock ..).symm ▸ hlt⟩
  · rw [exit_declare] at he
    obtain ⟨body, hops⟩ := h.jump k e he
    rw [Tape.declare, block_modifyBlock]
    split
    · rename_i hk
      obtain ⟨rfl, -⟩ := hk
      exact ⟨_, Block.ops_insertAtEnd_of_some he hops is⟩
    · exact ⟨body, hops⟩

theorem resolved_block (hresolve : Layout.resolve t.blocks.toList = (.ok ⟨⟩, ds))
    (hr : r.blocks = ds.toArray) : r.blocks.size = t.blocks.size ∧ r.startOf = t.startOf ∧
      ∀ k, k < t.blocks.size → Layout.Resolved t.blocks.toList k (t.block k) (r.block k) := by
  obtain ⟨hstart, hlength, hresolved⟩ := Layout.of_resolve hresolve
  have hsize : r.blocks.size = t.blocks.size := by
    rw [hr, size_toArray, hlength, Array.length_toList]
  refine ⟨hsize, ?_, fun k hk => ?_⟩
  · unfold startOf
    rw [hr, ← hstart]
  · obtain ⟨d, hd, hres⟩ := hresolved k _ (getElem?_toList_blocks t hk)
    have hblock := getElem?_toList_blocks r (hsize.symm ▸ hk)
    rw [hr, hd] at hblock
    exact Option.some.inj hblock ▸ hres

theorem exit_resolved (hresolve : Layout.resolve t.blocks.toList = (.ok ⟨⟩, ds))
    (hr : r.blocks = ds.toArray) (k : BlockId) : (r.block k).exit = (t.block k).exit := by
  obtain ⟨hsize, -, hresolved⟩ := resolved_block hresolve hr
  rcases lt_or_ge k t.blocks.size with hk | hk
  · exact (hresolved k hk).exit
  · rw [block_of_size_le (hsize.symm ▸ hk), block_of_size_le hk]

theorem Ends.lands (h : t.Ends) (hresolve : Layout.resolve t.blocks.toList = (.ok ⟨⟩, ds))
    (hr : r.blocks = ds.toArray) : r.Lands := by
  obtain ⟨hsize, hstart, hresolved⟩ := resolved_block hresolve hr
  have hexit := exit_resolved hresolve hr
  -- the operations of a block with an exit
  have hops {k : BlockId} {e : Exit} (he : (t.block k).exit = some e) :
      ∃ y body, e.target = some y ∧ y < t.blocks.size ∧ (r.block k).ops =
        body ++ [.inst (e.kind.jump.withJumpOffset ((t.startOf y : Int) - t.startOf (k + 1)))] ∧
        (∀ op ∈ body, op ∈ (t.block k).ops) := by
    obtain ⟨y, hy, hlt⟩ := h.target k e he
    obtain ⟨body, hbody⟩ := h.jump k e he
    have hk : k < t.blocks.size := lt_size_of_exit he
    obtain ⟨y', hy', hset⟩ := (hresolved k hk).ops_of_some e.kind e.target he
    cases hy.symm.trans hy'
    refine ⟨y, body, hy, hlt, ?_, fun op hop => ?_⟩
    · rw [hset (by rwa [Array.length_toList]), Block.ops_setJump hbody]
      rfl
    · rw [hbody]
      exact mem_append_left _ hop
  refine ⟨fun k op hop => ?_, fun k e he => ?_⟩
  · rcases lt_or_ge k t.blocks.size with hk | hk
    · cases he : (t.block k).exit with
      | none =>
        rw [(hresolved k hk).ops_of_none he] at hop
        exact h.inst k op hop
      | some e =>
        obtain ⟨y, body, -, -, hbody, hsub⟩ := hops he
        rw [hbody] at hop
        rcases mem_append.1 hop with hop | hop
        · exact h.inst k op (hsub op hop)
        · rw [mem_singleton.1 hop]
          rfl
    · rw [block_of_size_le (hsize.symm ▸ hk)] at hop
      cases hop
  · rw [hexit] at he
    obtain ⟨y, body, hy, hlt, hbody, -⟩ := hops he
    rw [hsize, hstart]
    refine ⟨y, body, hy, hlt, hbody, ?_⟩
    obtain ⟨kind, target⟩ := e
    cases hy
    exact Layout.start_ne_of_resolve hresolve (getElem?_toList_blocks t (lt_size_of_exit he)) he
      (by rwa [Array.length_toList])

/-! ## Stages of a tape -/

/-- The blocks have these exits, if any are given. -/
def Keeps (exits : Option (BlockId → Option Exit)) (t : Tape) : Prop :=
  ∀ f ∈ exits, ∀ k, (t.block k).exit = f k

end Tape

/-- The bytecode is that of the code of a tape. -/
structure FinishedTape.Encodes (result : FinishedTape) (t : Tape) : Prop where
  sound : t.Sound
  bytecode : ∃ physical, result.bytecode = t.code.flatMap (·.encode physical)
  count : result.instructionCount = t.code.length

namespace Tape

variable {exits : Option (BlockId → Option Exit)} {source : FinishedTape → Tape → Prop}

/-- What is known of a tape in the stage that it is in: it has the exits that are given, its jumps
stand at the ends of its blocks once it is scheduled, and they land once it is allocated. A finished
tape comes from a tape whose jumps land. -/
structure Tidy (source : FinishedTape → Tape → Prop) (exits : Option (BlockId → Option Exit))
    (t : Tape) : Prop where
  keeps : (∀ result, t.state ≠ .finished result) → t.Keeps exits
  ends : t.state = .scheduled → t.Ends
  lands : ∀ usage requirements, t.state = .allocated usage requirements → t.Lands
  finished : ∀ result, t.state = .finished result → ∃ r : Tape, source result r ∧ r.Lands ∧
    t.blocks = (BuildM.purgeTape r).blocks ∧ result.Encodes r

theorem Keeps.congr (h : t.Keeps exits) (hblock : ∀ k, (t'.block k).exit = (t.block k).exit) :
    t'.Keeps exits :=
  fun f hf k => (hblock k).trans (h f hf k)

theorem Tidy.congr (h : t.Tidy source exits) (hstate : t'.state = t.state)
    (hblocks : t'.blocks = t.blocks) : t'.Tidy source exits := by
  refine ⟨?_, ?_, ?_, ?_⟩ <;> rw [hstate]
  · exact fun hs => (h.keeps hs).congr fun k => by rw [block, hblocks, block]
  · exact fun hs => (h.ends hs).congr hblocks
  · exact fun _ _ hs => (h.lands _ _ hs).congr hblocks
  · rw [hblocks]
    exact h.finished

theorem Tidy.of_building (hb : t.isBuilding) (h : t.Keeps exits) : t.Tidy source exits := by
  have hs : t.state = .building := of_decide_eq_true hb
  refine ⟨fun _ => h, ?_, ?_, ?_⟩ <;> rw [hs] <;> nofun

theorem Tidy.keeps_of_building (h : t.Tidy source exits) (hb : t.isBuilding) : t.Keeps exits := by
  refine h.keeps ?_
  rw [show t.state = .building from of_decide_eq_true hb]
  nofun

theorem keeps_none (t : Tape) : t.Keeps none := nofun

theorem exit_closeTape (h : t.Graph) (k : BlockId) :
    ((BuildM.closeTape t).block k).exit = (t.block k).exit := by
  rcases lt_or_ge k t.blocks.size with hk | hk
  · have hclose (b : Block) (hb : b.isOpen = true → b.exit = none) :
        (b.close none).exit = b.exit := by
      unfold Block.close
      split
      · rename_i hopen
        exact (hb hopen).symm
      · rfl
    have hopen : (t.block k).isOpen = true → (t.block k).exit = none := by
      intro hopen
      rcases Nat.lt_succ_iff_lt_or_eq.1 (h.wired.size ▸ hk) with hlt | rfl
      · have hstate := of_decide_eq_true hopen
        cases (h.wired.closed k hlt).symm.trans hstate
      · exact h.wired.exit_active
    rw [block_closeTape t hk]
    show (t.closed.block k).exit = _
    rw [block_closed t hk]
    split
    · exact hclose _ hopen
    · exact hclose _ hopen
  · rw [block_of_size_le (by rwa [size_closeTape]), block_of_size_le hk]

theorem Graph.target (h : t.Graph) (hscopes : t.scopes = []) (he : (t.block k).exit = some e) :
    ∃ y, e.target = some y ∧ y < t.blocks.size := by
  obtain ⟨kind, _ | y⟩ := e
  · obtain ⟨s, hs, -⟩ := h.wired.waiting k kind he
    rw [hscopes] at hs
    cases hs
  · refine ⟨y, rfl, ?_⟩
    have hk := lt_size_of_exit he
    cases kind with
    | ifNonZero cond =>
      obtain ⟨_, ⟨⟩, hle⟩ := h.wired.back k cond _ he
      exact lt_of_le_of_lt hle hk
    | always | ifZero => exact (h.wired.ahead k _ y he nofun).2

end Tape

/-! ## Stages of a program -/

namespace Program

/-- All tapes are tidy, and none is expected to have exits that is not there yet. -/
structure Tidy (source : TapeId → FinishedTape → Tape → Prop)
    (exits : TapeId → Option (BlockId → Option Exit)) (p : Program) : Prop where
  tape : ∀ id, id < p.tapes.size → (p.tapeAt id).Tidy (source id) (exits id)
  fresh : ∀ id, p.tapes.size ≤ id → exits id = none

/-- Where no exits are expected, only the code of closed tapes counts. -/
theorem durable_tidy : Durable (Tidy source fun _ => none) where
  aside h htapes := by
    refine ⟨fun id hid => ?_, fun _ _ => rfl⟩
    rw [tapeAt, htapes, ← tapeAt]
    exact h.tape id (htapes ▸ hid)
  edit {p id f} h hf := by
    refine ⟨fun j hj => ?_, fun _ _ => rfl⟩
    rw [size_modifyTape] at hj
    rw [tapeAt_modifyTape]
    split
    · rename_i hid
      obtain ⟨rfl, hlt⟩ := hid
      rcases hf with ⟨hstate, hblocks⟩ | ⟨-, hb⟩
      · exact (h.tape j hlt).congr hstate hblocks
      · exact .of_building hb (Tape.keeps_none _)
    · exact h.tape j hj
  push {p t} h ht := by
    refine ⟨fun j hj => ?_, fun _ _ => rfl⟩
    rw [tapeAt_push]
    split
    · exact .of_building ht (Tape.keeps_none _)
    · rename_i hne
      rw [Array.size_push] at hj
      exact h.tape j (lt_of_le_of_ne (Nat.le_of_lt_succ hj) hne)
  take {p} n h := by
    refine ⟨fun j hj => ?_, fun _ _ => rfl⟩
    rw [Array.take, Array.size_extract] at hj
    have hlt : j < n ∧ j < p.tapes.size := by omega
    rw [tapeAt_take p hlt.1]
    exact h.tape j hlt.2

theorem Tidy.spares (h : p.Tidy source exits) (hspares : Spares p id q)
    (htape : (q.tapeAt id).Tidy (source id) (exits id)) : q.Tidy source exits := by
  refine ⟨fun j hj => ?_, fun j hj => h.fresh j (hspares.size_le.trans hj)⟩
  by_cases hid : j = id
  · exact hid ▸ htape
  · rcases lt_or_ge j p.tapes.size with hlt | hge
    · rw [hspares.tape j hlt hid]
      exact h.tape j hlt
    · rw [h.fresh j hge]
      exact .of_building (hspares.born j hge hj) (Tape.keeps_none _)

/-- The exits that the blocks of the tapes have. -/
def exitsOf (p : Program) (id : TapeId) : Option (BlockId → Option Exit) :=
  if id < p.tapes.size then some fun k => ((p.tapeAt id).block k).exit else none

/-- What is known of a program, with the exits that its tapes have. Of a finished tape it is also
known that it is one already. -/
theorem Tidy.exitsOf {source' : TapeId → FinishedTape → Tape → Prop}
    (h : p.Tidy source fun _ => none)
    (hsource : ∀ id result t, (p.tapeAt id).state = .finished result → source id result t →
      source' id result t) : p.Tidy source' p.exitsOf := by
  refine ⟨fun id hid => ?_, fun id hid => if_neg (not_lt.2 hid)⟩
  have hkeeps : (p.tapeAt id).Keeps (p.exitsOf id) := by
    intro f hf k
    rw [Program.exitsOf, if_pos hid] at hf
    cases hf
    rfl
  have htape := h.tape id hid
  refine ⟨fun _ => hkeeps, htape.ends, htape.lands, fun result hstate => ?_⟩
  exact (htape.finished result hstate).imp fun r hr => hr.imp_left (hsource id result r hstate)

end Program

namespace BuildM

variable {α β : Type}

/-- Where the action succeeds, it keeps tidy programs tidy. -/
def Carries (source : TapeId → FinishedTape → Tape → Prop)
    (exits : TapeId → Option (BlockId → Option Exit)) (act : BuildM α) : Prop :=
  Preserves (Sane (Tidy source exits)) act

theorem Carries.of_lawful {act : BuildM α} (hact : Lawful act)
    (h : ∀ p a q, Sane (Tidy source exits) p → act.run p = (.ok a, q) → q.Tidy source exits) :
    Carries source exits act := by
  intro p a q hp hrun
  have hends := (hact p hp.1).ends
  rw [hrun] at hends
  exact hp.evolves hends (h p a q hp hrun)

/-! ### Scheduling -/

/-- The operations of a block that is scheduled end with the jump of its exit. -/
theorem exists_ops_of_run_scheduleBlock {index : BlockId} (hp : p.Coherent)
    (hid : id < p.tapes.size) (hstate : (p.tapeAt id).state = .scheduled)
    (hindex : index < (p.tapeAt id).blocks.size)
    (hrun : (scheduleBlock id options index).run p = (.ok ⟨⟩, q)) :
    ∃ body, ((q.tapeAt id).block index).ops = body ++ ((p.tapeAt id).block index).jumps := by
  have hclear := advances_clear hp hid hstate index
  rw [scheduleBlock_eq, run_get_bind, run_bind_ok (run_modify _ p)] at hrun
  have hopt : Meets (Advances id fun _ => False) _ _ _ :=
    meets_optimizeCleared options hp hid hstate hindex rfl
  obtain ⟨result, m, hresult, hstore⟩ := of_run_bind_ok hrun
  have hm := hopt.ends
  rw [hresult] at hm
  obtain ⟨ops, m', hjump, hrest⟩ := of_run_bind_ok hstore
  obtain ⟨rfl, hops⟩ := of_run_appendJump hjump
  cases hrest
  refine ⟨result.1, ?_⟩
  show (((m'.modifyTape id _).tapeAt id).block index).ops = _
  rw [tapeAt_modifyTape_self (hm.lt (hclear.lt hid)), Tape.block_modifyBlock,
    if_pos ⟨rfl, hm.size ▸ hclear.size ▸ hindex⟩]
  exact hops

theorem of_run_scheduleBlocks (hp : p.Coherent) (hid : id < p.tapes.size)
    (hstate : (p.tapeAt id).state = .scheduled)
    (hrun : ((List.range (p.tapeAt id).blocks.size).forM (scheduleBlock id options)).run p =
      (.ok ⟨⟩, q)) :
    (q.tapeAt id).blocks.size = (p.tapeAt id).blocks.size ∧ (q.tapeAt id).state = .scheduled ∧
      (∀ k, ((q.tapeAt id).block k).exit = ((p.tapeAt id).block k).exit) ∧
      ∀ k, k < (p.tapeAt id).blocks.size →
        (∀ op ∈ ((q.tapeAt id).block k).ops, op.inst?.isSome = true) ∧
        ∃ body, ((q.tapeAt id).block k).ops = body ++ ((p.tapeAt id).block k).jumps := by
  have hall := (meets_scheduleBlocks options (List.range (p.tapeAt id).blocks.size) hp hid hstate
    fun _ => mem_range.1).ends
  rw [hrun] at hall
  have hq : stateAt id options p (p.tapeAt id).blocks.size = q := by rw [stateAt, hrun]
  refine ⟨hall.size, hall.state.trans hstate, fun k => ?_, fun k hk => ?_⟩
  · rcases Nat.lt_or_ge k (p.tapeAt id).blocks.size with hk | hk
    · obtain ⟨ops, rounds, groups, usage, hblock⟩ :=
        (scheduledAs_stateAt hrun hp hid hstate le_rfl hk).rest
      rw [hblock]
    · rw [Tape.block_of_size_le (hall.size.symm ▸ hk), Tape.block_of_size_le hk]
  · have hscheduled := scheduledAs_stateAt hrun hp hid hstate le_rfl hk
    refine ⟨fun op hop => (hscheduled.owned op hop).2, ?_⟩
    have hfirst : Advances id (fun i => 0 ≤ i ∧ i < k) p (stateAt id options p k) :=
      advances_stateAt hrun hp hid hstate le_rfl k.zero_le hk.le
    have hlast := advances_stateAt hrun hp hid hstate le_rfl hk le_rfl
    rw [hq] at hlast
    obtain ⟨body, hops⟩ := exists_ops_of_run_scheduleBlock hfirst.coherent (hfirst.lt hid)
      (hfirst.state.trans hstate) (hfirst.size ▸ hk) (run_scheduleBlock_stateAt hrun hk)
    rw [hfirst.block fun h => lt_irrefl k h.2] at hops
    rw [hlast.block fun h => lt_irrefl k h.1]
    exact ⟨body, hops⟩

theorem tapes_of_run_scheduleTape (hid : ¬id < p.tapes.size)
    (hrun : (scheduleTape id).run p = (.ok ⟨⟩, q)) : q.tapes = p.tapes := by
  have hnone (f : Tape → Tape) : (p.modifyTape id f).tapes = p.tapes := by
    show p.tapes.modify id f = p.tapes
    refine Array.ext_getElem? fun j => ?_
    rw [Array.getElem?_modify]
    split
    · rename_i hj
      rw [← hj, Array.getElem?_eq_none (not_lt.1 hid)]
      rfl
    · rfl
  have htape (r : Program) (hr : r.tapes = p.tapes) : (r.tapeAt id).blocks = #[] := by
    rw [tapeAt_of_size_le (hr ▸ not_lt.1 hid)]
    rfl
  unfold scheduleTape at hrun
  rw [run_get_bind] at hrun
  split at hrun
  · obtain ⟨_, m, hcheck, hrest⟩ := of_run_bind_ok hrun
    obtain ⟨rfl, -⟩ := of_run_checkScopes hcheck
    rw [run_bind_ok (run_modify _ m), run_get_bind, htape _ (hnone _)] at hrest
    cases hrest
    exact hnone _
  · cases hrun
    rfl

theorem carries_scheduleTape (id : TapeId) : Carries source exits (scheduleTape id) := by
  refine .of_lawful (lawful_scheduleTape id) fun p _ q hp hrun => ?_
  by_cases hid : id < p.tapes.size
  · have hspares := spares_scheduleTape hid p (.refl p id)
    rw [hrun] at hspares
    refine hp.2.2.spares hspares ?_
    by_cases hb : (p.tapeAt id).isBuilding = true
    · obtain ⟨hscopes, hblocks⟩ := run_closed_of_run_scheduleTape hp.1 hb hrun
      have hgraph := hp.2.1 id hid (of_decide_eq_true hb)
      have hclosed := tapeAt_modifyTape_self hid closeTape
      obtain ⟨hsize, hstate', hexit, hops⟩ := of_run_scheduleBlocks
        (evolves_close hp.1 hb hscopes).coherent ((size_modifyTape ..).symm ▸ hid)
        (state_close hid) hblocks
      rw [hclosed] at hsize hexit hops
      rw [Tape.size_closeTape] at hsize hops
      simp only [Tape.exit_closeTape hgraph] at hexit
      refine ⟨fun _ => ((hp.2.2.tape id hid).keeps_of_building hb).congr hexit, fun _ =>
        ⟨fun k op hop => ?_, fun k e he => ?_, fun k e he => ?_⟩,
        fun _ _ hs => (by cases hstate'.symm.trans hs), fun _ hs =>
          (by cases hstate'.symm.trans hs)⟩
      · rcases lt_or_ge k (p.tapeAt id).blocks.size with hk | hk
        · exact (hops k hk).1 op hop
        · rw [Tape.block_of_size_le (hsize.symm ▸ hk)] at hop
          cases hop
      · rw [hsize]
        exact hgraph.target hscopes ((hexit k).symm.trans he)
      · have hk := Tape.lt_size_of_exit he
        obtain ⟨body, hbody⟩ := (hops k (hsize ▸ hk)).2
        rw [Block.jumps_of_some
          ((Tape.exit_closeTape hgraph k).trans ((hexit k).symm.trans he))] at hbody
        exact ⟨body, hbody⟩
    · have hsame : q = p := by
        have hdo : (scheduleTape id).run p = (.ok ⟨⟩, p) := by
          unfold scheduleTape
          rw [run_get_bind, if_neg hb]
          rfl
        exact (congrArg Prod.snd (hdo.symm.trans hrun)).symm
      rw [hsame]
      exact hp.2.2.tape id hid
  · have htapes := tapes_of_run_scheduleTape hid hrun
    refine ⟨fun j hj => ?_, fun j hj => hp.2.2.fresh j (htapes ▸ hj)⟩
    rw [tapeAt, htapes, ← tapeAt]
    exact hp.2.2.tape j (htapes ▸ hj)

/-! ### The main tape -/

theorem carries_closeMain : Carries source exits closeMain := by
  refine .of_lawful lawful_closeMain fun p _ q hp hrun => ?_
  obtain ⟨_, m, hcheck, hrest⟩ := of_run_bind_ok hrun
  obtain ⟨rfl, -⟩ := of_run_checkScopes hcheck
  rw [run_get_bind] at hrest
  split at hrest
  · rename_i hb
    have hmain := hp.1.main_lt
    have hgraph := hp.2.1 _ hmain (of_decide_eq_true hb)
    have hkeeps := (hp.2.2.tape _ hmain).keeps_of_building hb
    -- what touching the last cells leaves as it is
    let I (q : Program) : Prop := Spares m mainTape q ∧ (q.tapeAt mainTape).isBuilding = true ∧
      (q.tapeAt mainTape).Keeps (exits mainTape)
    have hedit {q : Program} {f : Tape → Tape} (hq : I q)
        (hstate : (f (q.tapeAt mainTape)).state = (q.tapeAt mainTape).state)
        (hexit : ∀ k, ((f (q.tapeAt mainTape)).block k).exit = ((q.tapeAt mainTape).block k).exit) :
        I (q.modifyTape mainTape f) := by
      have hlt := hmain.trans_le hq.1.size_le
      have htape : (q.modifyTape mainTape f).tapeAt mainTape = f (q.tapeAt mainTape) := by
        rw [tapeAt_modifyTape_self hlt]
      refine ⟨hq.1.modifyTape hmain f, ?_, ?_⟩
      · rw [htape, Tape.isBuilding, hstate]
        exact hq.2.1
      · rw [htape]
        exact hq.2.2.congr hexit
    have hfills : Fills I mainTape := by
      refine ⟨fun hq hf => hedit hq (by rw [hf]) fun k => by rw [hf]; rfl, fun i hq => ?_⟩
      refine hedit hq rfl fun k => ?_
      rw [Tape.append, Tape.block_modifyBlock]
      split
      · rename_i hk
        rw [hk.1]
      · rfl
    have hdeclare : I (declareMemory.run m).2 := by
      have hstart : I m := ⟨.refl m mainTape, hb, hkeeps⟩
      unfold declareMemory
      rw [run_get_bind]
      simp only []
      split
      · exact hstart
      · rw [run_bind_ok (run_modify _ m)]
        refine Maintains.forM
          (fun cls => hfills.touchLastCell cls _) _ _ ⟨hstart.1.modifyTape hmain _, ?_, ?_⟩
        · rw [tapeAt_modifyTape_self hmain]
          simpa [Tape.isBuilding, Tape.state_startBlock] using hb
        · rw [tapeAt_modifyTape_self hmain]
          refine hkeeps.congr fun k => ?_
          rw [Tape.exit_startBlock hgraph.wired.size hgraph.wired.opened]
          split
          · rename_i hk
            rw [Tape.block_of_size_le (hgraph.wired.size.trans hk.symm).le]
            rfl
          · split
            · rename_i hk
              rw [hk]
              exact hgraph.wired.exit_active.symm
            · rfl
    rw [hrest] at hdeclare
    exact hp.2.2.spares hdeclare.1 (.of_building hdeclare.2.1 hdeclare.2.2)
  · cases hrest
    exact hp.2.2

/-! ### Allocation and bytecode -/

theorem carries_ensureAllocated (id : TapeId) : Carries source exits (ensureAllocated id) := by
  refine .of_lawful (lawful_ensureAllocated id) fun p _ q hp hrun => ?_
  by_cases hid : id < p.tapes.size
  · have hspares := spares_ensureAllocated hid p (.refl p id)
    rw [hrun] at hspares
    refine hp.2.2.spares hspares ?_
    unfold ensureAllocated at hrun
    rw [run_get_bind] at hrun
    split at hrun
    · rename_i hstate
      obtain ⟨-, -, is, ds, usage, -, hresolve, hblocks, hallocated⟩ := of_run_allocateTape hid hrun
      have htidy := hp.2.2.tape id hid
      have hkeeps := htidy.keeps fun _ hs => by cases hstate.symm.trans hs
      refine ⟨fun _ => hkeeps.congr fun k => ?_, fun hs => ?_,
        fun _ _ _ => ((htidy.ends hstate).declare is).lands hresolve hblocks, fun _ hs => ?_⟩
      · rw [Tape.exit_resolved hresolve hblocks, Tape.exit_declare]
      · cases hallocated.symm.trans hs
      · cases hallocated.symm.trans hs
    · cases hrun
      exact hp.2.2.tape id hid
  · unfold ensureAllocated at hrun
    rw [run_get_bind, tapeAt_of_size_le (not_lt.1 hid)] at hrun
    cases hrun
    exact hp.2.2

theorem prepares_carries : Prepares (Carries source exits) where
  toSequential := sequential_preserves _
  closeMain := carries_closeMain
  scheduleTape := carries_scheduleTape
  ensureAllocated := carries_ensureAllocated

/-- Encoding keeps a program tidy, if the tape that is encoded is a source of finished tapes. -/
theorem sane_of_run_encodeTape (hp : Sane (Tidy source exits) p)
    (hsource : ∀ usage requirements result, (p.tapeAt id).state = .allocated usage requirements →
      source id result (p.tapeAt id)) (hrun : (encodeTape id).run p = (.ok ⟨⟩, q)) :
    Sane (Tidy source exits) q ∧
      ∀ j, (∀ result, (q.tapeAt j).state ≠ .finished result) → q.tapeAt j = p.tapeAt j := by
  have hends := (lawful_encodeTape id p hp.1).ends
  rw [hrun] at hends
  unfold encodeTape at hrun
  rw [run_get_bind] at hrun
  simp only [] at hrun
  by_cases hid : id < p.tapes.size
  · split at hrun
    · cases hrun
      exact ⟨hp, fun _ _ => rfl⟩
    · cases hrun
    · cases hrun
    · rename_i usage requirements hstate
      cases hrun
      have hlands := (hp.2.2.tape id hid).lands _ _ hstate
      refine ⟨hp.evolves hends (hp.2.2.spares ((Spares.refl p id).modifyTape hid _) ?_),
        fun j hj => ?_⟩
      · rw [tapeAt_modifyTape_self hid]
        refine ⟨fun hs => absurd rfl (hs _), nofun, nofun, fun result hs => ?_⟩
        cases hs
        exact ⟨p.tapeAt id, hsource _ _ _ hstate, hlands, rfl, hp.1.sound hid,
          ⟨physicalOf p, rfl⟩, rfl⟩
      · rw [tapeAt_modifyTape] at hj ⊢
        split at hj
        · exact absurd rfl (hj _)
        · rename_i hne
          rw [if_neg hne]
  · rw [tapeAt_of_size_le (not_lt.1 hid)] at hrun
    cases hrun

/-! ### The tape that is encoded -/

/-- The action gets a tape of the program allocated, as `t`. The blocks have the exits that the tape
has in the program. -/
structure Readies (act : BuildM Unit) (p : Program) (id : TapeId) (t : Tape) : Prop where
  run : ∃ r, act.run p = (.ok ⟨⟩, r) ∧ r.tapeAt id = t
  allocated : ∃ usage requirements, t.state = .allocated usage requirements
  exit : id < p.tapes.size → ∀ k, (t.block k).exit = ((p.tapeAt id).block k).exit

theorem readies_of_run {act : BuildM Unit} {r : Program} (hact : Carries source p.exitsOf act)
    (hp : Sane (Tidy source p.exitsOf) p) (hrun : act.run p = (.ok ⟨⟩, r)) {usage : PerClass Nat}
    {requirements : Tally} (hstate : (r.tapeAt id).state = .allocated usage requirements) :
    Readies act p id (r.tapeAt id) := by
  refine ⟨⟨r, hrun, rfl⟩, ⟨usage, requirements, hstate⟩, fun hid k => ?_⟩
  have hlt : id < r.tapes.size := by
    by_contra hlt
    rw [tapeAt_of_size_le (not_lt.1 hlt)] at hstate
    cases hstate
  have hkeeps := ((hact p _ r hp hrun).2.2.tape id hlt).keeps
    fun _ hs => by cases hstate.symm.trans hs
  exact hkeeps _ (by rw [exitsOf, if_pos hid]; rfl) k

/-- A tape was encoded as it was allocated when it was finalized, at one of the moments. -/
def FinalizedAt (moments : TapeId → Program → Bool) (id : TapeId) (_ : FinishedTape)
    (t : Tape) : Prop :=
  ∃ m, moments id m = true ∧ Readies (prepareTape id) m id t

theorem tidy_of_run_finalizeTape (hmoment : moments id p = true)
    (hp : Sane (Tidy (FinalizedAt moments) fun _ => none) p)
    (hrun : (finalizeTape id).run p = (.ok ⟨⟩, q)) :
    q.Tidy (FinalizedAt moments) fun _ => none := by
  rw [finalizeTape_eq] at hrun
  obtain ⟨_, r, hprepare, hencode⟩ := of_run_bind_ok hrun
  have hr := prepares_carries.prepareTape id p _ r hp hprepare
  have hexits := hp.2.2.exitsOf fun _ _ _ _ h => h
  refine (sane_of_run_encodeTape hr (fun usage requirements result hstate => ⟨p, hmoment, ?_⟩)
    hencode).1.2.2
  exact readies_of_run (prepares_carries.prepareTape id) ⟨hp.1, hp.2.1, hexits⟩ hprepare hstate

theorem carries_assemble : Carries source exits assemble :=
  prepares_carries.bind prepares_carries.closeMain fun _ =>
    prepares_carries.bind prepares_carries.scheduleAll fun _ => prepares_carries.get_bind fun _ =>
      prepares_carries.forM prepares_carries.ensureAllocated _

/-- Where the tapes of a finished program come from: a tape was finished before, or it was encoded
as it was allocated. -/
theorem tidy_of_run_finish {c : CompiledProgram} (hp : Sane (Tidy source fun _ => none) p)
    (h : finish.run p = (.ok c, q)) :
    q.Tidy (fun id result t => ((p.tapeAt id).state = .finished result ∧ source id result t) ∨
      Readies assemble p id t) p.exitsOf := by
  obtain ⟨r, hassemble, hencode, -⟩ := exists_of_run_finish h
  generalize hsource' : (fun id result t => ((p.tapeAt id).state = .finished result ∧
    source id result t) ∨ Readies assemble p id t) = source'
  have hp' : Sane (Tidy source' p.exitsOf) p := by
    refine ⟨hp.1, hp.2.1, hp.2.2.exitsOf fun id result t hstate ht => ?_⟩
    rw [← hsource']
    exact .inl ⟨hstate, ht⟩
  -- a tape that is not encoded yet is as it was allocated
  let I (m : Program) : Prop := Sane (Tidy source' p.exitsOf) m ∧
    ∀ j, (∀ result, (m.tapeAt j).state ≠ .finished result) → m.tapeAt j = r.tapeAt j
  have hstep (k : TapeId) : Preserves I (encodeTape k) := by
    rintro m _ m' ⟨hm, hsame⟩ hrun
    have hready (usage requirements result)
        (hstate : (m.tapeAt k).state = .allocated usage requirements) :
        source' k result (m.tapeAt k) := by
      have hk := hsame k fun result hresult => by cases hstate.symm.trans hresult
      rw [hk] at hstate ⊢
      rw [← hsource']
      exact .inr (readies_of_run carries_assemble hp' hassemble hstate)
    obtain ⟨hm', hsame'⟩ := sane_of_run_encodeTape hm hready hrun
    refine ⟨hm', fun j hj => (hsame' j hj).trans (hsame j fun result hresult => ?_)⟩
    exact hj result ((congrArg _ (hsame' j hj)).trans hresult)
  exact ((sequential_preserves I).forM hstep _ r _ q
    ⟨carries_assemble p _ r hp' hassemble, fun _ _ => rfl⟩ hencode).1.2.2

end BuildM

/-! ## Bytecode -/

theorem Bytecode.exists_getElem?_decodedFrom {resolve : Reg → Nat} {n : Nat} {i : Instruction}
    (h : is[n]? = some i) (offset : Nat) :
    ∃ offset', (decodedFrom resolve offset is)[n]? = some (decodedAt resolve offset' i) := by
  induction is generalizing n offset with
  | nil => cases h
  | cons j is ih =>
    cases n with
    | zero =>
      cases h
      exact ⟨offset, rfl⟩
    | succ n => exact ih h _

theorem Instruction.eight_mul_length_le (is : List Instruction) (resolve : Reg → Nat) :
    8 * is.length ≤ (is.flatMap (·.encode resolve)).length := by
  induction is with
  | nil => exact le_rfl
  | cons i is ih =>
    have hword : 8 ≤ (i.encode resolve).length := by
      rw [encode, append_assoc, length_append, length_bigEndian]
      exact Nat.le_add_right ..
    rw [flatMap_cons, length_append, length_cons]
    omega

theorem ExitKind.jumpOffset?_decodedAt (kind : ExitKind) (resolve : Reg → Nat)
    (offset : Nat) (d : Int) :
    (Bytecode.decodedAt resolve offset (kind.jump.withJumpOffset d).wrapped).opcode =
      kind.jump.opcode ∧
    (Bytecode.decodedAt resolve offset (kind.jump.withJumpOffset d).wrapped).jumpOffset? =
      some (wrap 32 d) := by
  cases kind <;> exact ⟨rfl, rfl⟩

namespace Tape

theorem Lands.map_inst_code (h : t.Lands) : t.code.map .inst = t.blocks.toList.flatMap (·.ops) := by
  have hblock (b : Block) (hb : b ∈ t.blocks.toList) :
      b.instructions.map Op.inst = b.ops := by
    obtain ⟨k, -, rfl⟩ := exists_block_of_mem (Array.mem_toList_iff.1 hb)
    have hinst := h.inst k
    rw [Block.instructions]
    generalize (t.block k).ops = ops at hinst
    induction ops with
    | nil => rfl
    | cons op ops ih =>
      cases op with
      | inst i =>
        exact congrArg _ (ih fun o ho => hinst o (.tail _ ho))
      | call c => cases hinst _ (.head _)
  rw [code, map_flatMap]
  exact flatMap_congr hblock

theorem Lands.length_code (h : t.Lands) : t.code.length = t.startOf t.blocks.size := by
  rw [startOf, ← Array.length_toList, Layout.startOf_length, ← h.map_inst_code, length_map]

/-- The instructions that are read back go along the exits of the blocks. The last instruction of a
block with an exit is the jump for it; it is read back as instruction `i` with an offset `d` such
that `i + 1 + d` is the number of instructions in front of the target, which is inside the code and
not `i`. -/
def JumpsAlong (t : Tape) (insts : List DecodedInstruction) : Prop :=
  ∀ k e, (t.block k).exit = some e → ∃ y i d inst,
    e.target = some y ∧ i + 1 = t.startOf (k + 1) ∧ insts[i]? = some inst ∧
    (t.block k).ops.getLast? = some (.inst (e.kind.jump.withJumpOffset d)) ∧
    inst.opcode = e.kind.jump.opcode ∧ inst.jumpOffset? = some d ∧
    (i : Int) + 1 + d = t.startOf y ∧ t.startOf y ≤ insts.length ∧ t.startOf y ≠ i

/-- The bytecode of a tape whose jumps land goes along the exits of its blocks. -/
theorem Lands.decodes (h : t.Lands) {result : FinishedTape} (hresult : result.Encodes t)
    (hlength : result.bytecode.length < 2 ^ 34) :
    ∃ insts, Bytecode.decode result.bytecode = .ok insts ∧ insts.length = result.instructionCount ∧
      t.startOf t.blocks.size = insts.length ∧
      t.JumpsAlong insts := by
  obtain ⟨physical, hbytes⟩ := hresult.bytecode
  rw [hbytes] at hlength ⊢
  have hdecode := Bytecode.decode_eq_of_typed (fun i hi => hresult.sound.typed hi) hlength
  have hcount : t.code.length < 2 ^ 31 := by
    have hle := Instruction.eight_mul_length_le t.code physical
    omega
  have htotal : (Bytecode.decodedFrom (fun r => physical r % 2 ^ 32) 0
      (t.code.map (·.wrapped))).length = t.code.length := by
    rw [Bytecode.length_decodedFrom, length_map]
  refine ⟨_, hdecode, htotal.trans hresult.count.symm, ?_, fun k e he => ?_⟩
  · rw [htotal, h.length_code]
  obtain ⟨y, body, hy, hlt, hops, hne⟩ := h.jump k e he
  have hk : k < t.blocks.size := lt_size_of_exit he
  have hsucc : t.startOf (k + 1) = t.startOf k + (body.length + 1) := by
    rw [startOf, Layout.startOf_succ (getElem?_toList_blocks t hk), hops, length_append]
    rfl
  have hle {j : BlockId} (hj : j ≤ t.blocks.size) : t.startOf j ≤ t.code.length := by
    rw [h.length_code]
    exact Layout.monotone_startOf _ hj
  have hstop : t.startOf (k + 1) ≤ t.code.length := hle hk
  have hstart := hle hlt.le
  generalize hd : (t.startOf y : Int) - t.startOf (k + 1) = d at hops
  -- the jump among all instructions
  have hcode : t.code[t.startOf k + body.length]? = some (e.kind.jump.withJumpOffset d) := by
    have hget := Layout.getElem?_flatMap_ops (getElem?_toList_blocks t hk) (j := body.length)
      (by rw [hops, length_append]; exact Nat.lt_succ_self _)
    rw [← h.map_inst_code, hops, getElem?_concat_length, getElem?_map] at hget
    obtain ⟨i, hi, heq⟩ := Option.map_eq_some_iff.1 hget
    cases heq
    exact hi
  have hwrapped : (t.code.map (·.wrapped))[t.startOf k + body.length]? =
      some (e.kind.jump.withJumpOffset d).wrapped := by
    rw [getElem?_map, hcode]
    rfl
  obtain ⟨offset, hinst⟩ := Bytecode.exists_getElem?_decodedFrom hwrapped 0
  obtain ⟨hopcode, hoffset⟩ := e.kind.jumpOffset?_decodedAt (fun r => physical r % 2 ^ 32) offset d
  have hd32 : wrap 32 d = d := by
    refine toSigned_toUnsigned (by decide) ?_ ?_
    · simp only [Nat.reducePow, Nat.reduceSub]
      omega
    · simp only [Nat.reducePow, Nat.reduceSub]
      omega
  rw [hd32] at hoffset
  refine ⟨y, t.startOf k + body.length, d, _, hy, ?_, hinst, ?_, hopcode, hoffset, ?_, ?_, ?_⟩
  · omega
  · rw [hops]
    simp
  · omega
  · rw [htotal]
    exact hstart
  · omega

end Tape

/-! ## Finished programs -/

namespace Program

/-- The program is what careful actions made of a new one; the last of them may have failed. Tapes
were finalized at the moments only. -/
def CarefullyBuilt (moments : TapeId → Program → Bool) (p : Program) : Prop :=
  ∃ (name : String) (options : Options) (start : Program) (α : Type) (act : BuildM α),
    Program.new name options = .ok start ∧ act.Careful moments ∧ (act.run start).2 = p

theorem CarefullyBuilt.sane (h : p.CarefullyBuilt moments) :
    BuildM.Sane (Tidy (BuildM.FinalizedAt moments) fun _ => none) p := by
  obtain ⟨name, options, start, α, act, hnew, hact, rfl⟩ := h
  refine hact.maintains durable_tidy (fun id p q hmoment hp hrun =>
    BuildM.tidy_of_run_finalizeTape hmoment hp hrun) start
    ⟨coherent_of_new hnew, graphs_of_new hnew, ⟨fun id hid => ?_, fun _ _ => rfl⟩⟩
  unfold Program.new at hnew
  split at hnew
  · cases hnew
  · cases hnew
    obtain rfl : id = mainTape := Nat.lt_one_iff.1 hid
    exact .of_building rfl (Tape.keeps_none _)

end Program

namespace BuildM

/-- In a finished program jumps land where the blocks say. The code of every tape is that of a tape
`t` which was allocated and then encoded: when the tape was finalized, at one of the moments (any
test of programs may name them), or else when the program was finished. The blocks of `t` have the
exits that the tape had then, and the program keeps those of them that are not empty. The code goes
along the exits. -/
theorem jumps_land {c : CompiledProgram} (hp : p.CarefullyBuilt moments)
    (h : finish.run p = (.ok c, q)) (hlength : ∀ t ∈ c.tapes, t.bytecode.length < 2 ^ 34) :
    ∀ id result, c.tapes[id]? = some result → ∃ t : Tape,
      (((p.tapeAt id).state = .finished result ∧
          ∃ m, moments id m = true ∧ Readies (prepareTape id) m id t) ∨ Readies assemble p id t) ∧
      (q.tapeAt id).blocks = (purgeTape t).blocks ∧ result.Encodes t ∧
      ∃ insts, Bytecode.decode result.bytecode = .ok insts ∧
        insts.length = result.instructionCount ∧
        t.startOf t.blocks.size = insts.length ∧ t.JumpsAlong insts := by
  have hq := tidy_of_run_finish hp.sane h
  intro id result hresult
  obtain ⟨hid, hstate⟩ := (getElem?_tapes_iff h).1 hresult
  obtain ⟨t, hsource, hlands, hblocks, hencodes⟩ := (hq.tape id hid).finished result hstate
  exact ⟨t, hsource, hblocks, hencodes,
    hlands.decodes hencodes (hlength _ (mem_of_getElem? hresult))⟩

theorem careful_loadThenStore : loadThenStore.Careful moments :=
  .build (.bind (.newVector ..) fun _ => .bind (.view ..) fun _ =>
    .bind (.emit (.inl trivial) _) fun _ => .bind (.openLoop trivial _) fun _ =>
      .bind (.bind (.bind (.registerInfo _) fun _ => .pure _) fun _ => .emit (.inl trivial) _)
        fun _ => .endLoop _)

/-- The function is still being built. -/
def beforeFunction (id : TapeId) (p : Program) : Bool := id == 1 && (p.tapeAt 1).isBuilding

/-- A function with a loop is finalized before the main tape gets a loop of its own. -/
def loopsInTwoTapes : BuildM Unit := do
  let (callee, _) ← newFunction "f" loadThenStore
  finalizeAt beforeFunction callee
  loadThenStore

/-- The function has the code of the tape that was allocated when it was finalized, and the main
tape that of the tape that was allocated in the end. -/
theorem jumps_land_two_loops : let p := builtBy loopsInTwoTapes
    ∃ c q, finish.run p = (.ok c, q) ∧ c.tapes.map (·.instructionCount) = [3, 3] ∧
      p.tapes.toList.map (·.isBuilding) = [true, false] ∧
      ∀ id result, c.tapes[id]? = some result → ∃ t : Tape,
        (((p.tapeAt id).state = .finished result ∧
          ∃ m, beforeFunction id m = true ∧ Readies (prepareTape id) m id t) ∨
            Readies assemble p id t) ∧
        ∃ insts, Bytecode.decode result.bytecode = .ok insts ∧ t.JumpsAlong insts := by
  intro p
  have hbuilt : p.CarefullyBuilt beforeFunction := by
    refine ⟨"main", {}, _, Unit, loopsInTwoTapes, rfl, ?_, rfl⟩
    exact .bind (.newFunction "f" careful_loadThenStore) fun _ => .bind (.finalizeTape _) fun _ =>
      careful_loadThenStore
  obtain ⟨c, q, hrun, hcount, hlength⟩ := exists_run_ok finish p (fun c =>
    c.tapes.map (·.instructionCount) = [3, 3] ∧ ∀ t ∈ c.tapes, t.bytecode.length < 2 ^ 34)
    (by decide +kernel)
  refine ⟨c, q, hrun, hcount, by decide +kernel, fun id result hresult => ?_⟩
  obtain ⟨t, hsource, -, -, insts, hdecode, -, -, hjumps⟩ :=
    jumps_land hbuilt hrun hlength id result hresult
  exact ⟨t, hsource, insts, hdecode, hjumps⟩

end BuildM

end SecureTape
