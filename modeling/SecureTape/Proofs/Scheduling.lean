import SecureTape.Proofs.CallExpansion

/-!
# Scheduling

Main statements:
1. `BuildM.scheduleBlock_eq`: the parts of scheduling a block.
2. `BuildM.meets_scheduleBlock`: what scheduling makes of a block, and what it leaves as it is.
-/

namespace SecureTape

open Action RegisterFile Program List

variable {f g : RegisterFile} {b b' : Block} {options : MergeOptions} {ops : List Op}

namespace Block

def liveOut (regs : RegisterFile) (b : Block) : List Nat :=
  (b.exit.bind (·.kind.condition?)).toList.map regs.slotKey

def Uses (regs : RegisterFile) (key : Nat) (b : Block) : Prop :=
  (∃ op ∈ b.ops, ∃ r ∈ op.registers, regs.slotKey r = key) ∨
    ∃ cond, b.exit.bind (·.kind.condition?) = some cond ∧ regs.slotKey cond = key

/-- The block `b'` on the registers of `g` is what scheduling makes of `b` on those of `f`. -/
structure ScheduledAs (fits : Prop) (f g : RegisterFile) (b b' : Block) : Prop where
  rest : ∃ ops rounds groups usage, b' = { b with ops, rounds, groups, usage }
  owned : ∀ op ∈ b'.ops, op.Owned g ∧ op.inst?.isSome = true
  keys : fits → ∀ op ∈ b'.ops, ∀ r ∈ op.registers,
    f.size ≤ g.slotKey r ∨ b.Uses f (g.slotKey r)
  reads : fits → (∀ c, .call c ∈ b.ops → c.template.Honest) → ∀ {key}, key < f.size →
    SecureTape.Exposes g.slotKey key b'.ops → b.Exposes f key

theorem ScheduledAs.of_imp {fits fits' : Prop} (h : b.ScheduledAs fits f g b') (himp : fits' → fits) :
    b.ScheduledAs fits' f g b' :=
  ⟨h.rest, h.owned, fun hfits => h.keys (himp hfits), fun hfits => h.reads (himp hfits)⟩

end Block

namespace BuildM

variable {p : Program} {id : TapeId} {touched : BlockId → Prop}

/-! ## Parts of scheduling -/

/-- The operations of a block without dead and with merged ones, before its macro calls are expanded
and once more after it. -/
def optimizeBlock (id : TapeId) (options : MergeOptions) (regs : RegisterFile) (b : Block) :
    BuildM (List Op × MergeStats) :=
  let (ops, stats) := optimize regs options (b.liveOut regs) b.ops
  if ops.all (·.inst?.isSome) then pure (ops, stats)
  else do
    let expanded ← expandCalls id b.node ops
    return optimize ((← get).tapeAt id).regs options (b.liveOut regs) expanded

/-- Operations with the jump of an exit at their end. -/
def appendJump (id : TapeId) (exit : Option Exit) (ops : List Op) : BuildM (List Op) := do
  match exit with
  | none => return ops
  | some exit =>
    let jump ← exitJump ((← get).tapeAt id).regs exit.kind
    return ops ++ [.inst jump]

/-- Put the code of a block into the tape, and charge what it uses. -/
def storeBlock (id : TapeId) (index : BlockId) (b : Block) (result : List Op × MergeStats) :
    BuildM Unit := do
  let ops ← appendJump id b.exit result.1
  modify fun p => p.modifyTape id fun t => t.modifyBlock index fun b =>
    { b with
      ops, rounds := result.2.rounds, groups := result.2.groups
      usage := blockUsage ops result.2 }
  onTree fun tree => ((), tree.addUsage b.node (blockUsage ops result.2))

theorem appendJump_bind {β : Type} (id : TapeId) (exit : Option Exit) (ops : List Op)
    (k : List Op → BuildM β) : appendJump id exit ops >>= k = (do
      match exit with
      | none => k ops
      | some exit =>
        let jump ← exitJump ((← get).tapeAt id).regs exit.kind
        k (ops ++ [.inst jump])) := by
  cases exit <;> simp [appendJump]

theorem scheduleBlock_eq (id : TapeId) (options : MergeOptions) (index : BlockId) :
    scheduleBlock id options index = (do
      let t := (← get).tapeAt id
      modify fun p => p.modifyTape id fun t => t.modifyBlock index ({ · with ops := [] })
      let result ← optimizeBlock id options t.regs (t.block index)
      storeBlock id index (t.block index) result) := by
  unfold scheduleBlock optimizeBlock storeBlock
  refine congrArg _ (funext fun p => ?_)
  simp only [Block.liveOut]
  refine congrArg _ (funext fun _ => ?_)
  split
  · rename_i hall
    simp only [hall, if_true, pure_bind]
    refine Eq.trans ?_ (appendJump_bind ..).symm
    rfl
  · rename_i hall
    simp only [hall, Bool.false_eq_true, if_false, bind_assoc, pure_bind]
    refine congrArg _ (funext fun _ => congrArg _ (funext fun _ => ?_))
    refine Eq.trans ?_ (appendJump_bind ..).symm
    rfl

/-! ## The code of a block -/

theorem fits_of_mem_optimize {liveOut : List Nat} (hops : ∀ op ∈ ops, op.Owned f)
    (ht : SameTemplates ops) (hfits : ∀ c, .call c ∈ ops → c.Fits p) {c : MacroCall}
    (hc : .call c ∈ (optimize f options liveOut ops).1) : c.Fits p := by
  obtain ⟨part, -, hsub, hgathers⟩ :=
    exists_gathers_of_mem_optimize (fun op hop => (hops op hop).layout) ht hc
  refine ⟨?_, ?_⟩
  · intro site hsite
    obtain ⟨d, hd, heq, hsite⟩ := hgathers.site rfl hsite
    rw [← heq]
    exact (hfits d (hsub hd)).args hsite
  · intro width entry hentry
    obtain ⟨d, hd, heq⟩ := hgathers.template rfl
    rw [MacroCall.key, ← heq] at hentry
    rw [← heq]
    exact (hfits d (hsub hd)).params hentry

theorem sameTemplates_of_cached (h : ∀ c, .call c ∈ ops → p.macros.lookup c.key = some c.template) :
    SameTemplates ops := by
  intro c d hc hd hkey
  have heq := h d hd
  rw [← hkey, h c hc, Option.some.injEq] at heq
  exact heq

section OptimizeBlock

variable (options : MergeOptions) (hp : p.Coherent) (hid : id < p.tapes.size)
  (hstate : (p.tapeAt id).TakesRegisters) {b : Block}
  (hops : ∀ op ∈ b.ops, op.Owned (p.tapeAt id).regs)
  (hcached : ∀ c, .call c ∈ b.ops → p.macros.lookup c.key = some c.template)

include hp hid hstate hops hcached

theorem meets_expandBlock :
    Meets (Advances id touched) (expandCalls id b.node
      (optimize (p.tapeAt id).regs options (b.liveOut (p.tapeAt id).regs) b.ops).1) p
      fun expanded q =>
        StandsFor (∀ c, .call c ∈ b.ops → c.Fits p) (· ∈ b.liveOut (p.tapeAt id).regs)
          (p.tapeAt id).regs (q.tapeAt id).regs b.ops expanded ∧
            ∀ op ∈ expanded, op.inst?.isSome = true := by
  have ht := sameTemplates_of_cached hcached
  have hfirst : StandsFor (∀ c, .call c ∈ b.ops → c.Fits p) _ _ _ b.ops
      (optimize (p.tapeAt id).regs options (b.liveOut (p.tapeAt id).regs) b.ops).1 :=
    .optimize hops ht
  refine (meets_expandCalls (· ∈ b.liveOut (p.tapeAt id).regs) b.node _ hp hid hstate
    hfirst.owned ?_).mono ?_
  · intro c hc
    obtain ⟨d, hd, heq⟩ := hfirst.calls c hc
    have hlookup := hcached d hd
    rwa [MacroCall.key, heq] at hlookup
  · rintro expanded q - ⟨hexpanded, hinst⟩
    refine ⟨hfirst.trans (hp.sound hid).valid.grows ?_, hinst⟩
    exact hexpanded.of_imp fun hfits (c : MacroCall) => fits_of_mem_optimize hops ht hfits

theorem meets_optimizeBlock :
    Meets (Advances id touched) (optimizeBlock id options (p.tapeAt id).regs b) p fun result q =>
      StandsFor (∀ c, .call c ∈ b.ops → c.Fits p) (· ∈ b.liveOut (p.tapeAt id).regs)
        (p.tapeAt id).regs (q.tapeAt id).regs b.ops result.1 ∧
          ∀ op ∈ result.1, op.inst?.isSome = true := by
  unfold optimizeBlock
  simp only []
  split
  · rename_i hall
    refine .pure (hp.advances hid) ⟨?_, all_eq_true.1 hall⟩
    exact .optimize hops (sameTemplates_of_cached hcached)
  · refine .bind (meets_expandBlock options hp hid hstate hops hcached) ?_
    rintro expanded q hq ⟨hexpanded, hinst⟩
    have hnone (c : MacroCall) (hc : .call c ∈ expanded) : False := by
      cases hinst _ hc
    have hsecond : StandsFor (∀ c, .call c ∈ b.ops → c.Fits p) _ _ _ expanded
        (optimize (q.tapeAt id).regs options (b.liveOut (p.tapeAt id).regs) expanded).1 :=
      .optimize hexpanded.owned fun c _ hc => (hnone c hc).elim
    refine .get_bind (.pure (hq.coherent.advances (hq.lt hid))
      ⟨hexpanded.trans hq.regs hsecond, ?_⟩)
    intro op hop
    cases op with
    | inst i => rfl
    | call c =>
      obtain ⟨d, hd, -⟩ := hsecond.calls c hop
      exact (hnone d hd).elim

end OptimizeBlock

theorem of_exitJump_eq_ok {regs : RegisterFile} {kind : ExitKind} {jump : Instruction}
    (h : exitJump regs kind = .ok jump) :
    (Op.inst jump).Owned regs ∧ jump.accesses = kind.condition?.toList.map ((·, .read)) := by
  have hmake {opcode : Opcode} {operands : List Operand}
      (h : Instruction.make opcode .base 1 operands regs = .ok jump) :
      (Op.inst jump).Owned regs ∧ jump = ⟨opcode, .base, 1, operands⟩ := by
    obtain ⟨-, -, -, -, -, heq⟩ := Instruction.of_make_eq_ok h
    rw [ite_self] at heq
    exact ⟨(Instruction.typed_of_make h).owned, heq⟩
  cases kind with
  | always | ifNonZero | ifZero =>
    rw [exitJump] at h
    obtain ⟨howned, rfl⟩ := hmake h
    exact ⟨howned, rfl⟩

/-- The operations `ops'` are `ops` and the jump of the exit. -/
def Jumps (regs : RegisterFile) (exit : Option Exit) (ops ops' : List Op) : Prop :=
  ops' = ops ∨ ∃ e jump, exit = some e ∧ exitJump regs e.kind = .ok jump ∧ ops' = ops ++ [.inst jump]

theorem meets_appendJump (hp : p.Coherent) (hid : id < p.tapes.size) (exit : Option Exit)
    (ops : List Op) : Meets (Advances id touched) (appendJump id exit ops) p fun ops' q =>
      q = p ∧ Jumps (p.tapeAt id).regs exit ops ops' := by
  unfold appendJump
  split
  · exact .pure (hp.advances hid) ⟨rfl, .inl rfl⟩
  · refine .get_bind (.liftM_bind (hp.advances hid) ?_)
    intro jump hjump
    exact .pure (hp.advances hid) ⟨rfl, .inr ⟨_, jump, rfl, hjump, rfl⟩⟩

theorem scheduledAs_of_standsFor {fits : Prop} (hf : f.Valid) (hg : Grows f g) (hb : b.Sound f)
    (h : StandsFor fits (· ∈ b.liveOut f) f g b.ops ops) (hinst : ∀ op ∈ ops, op.inst?.isSome)
    (hjump : Jumps g b.exit ops b'.ops)
    (hrest : ∃ ops rounds groups usage, b' = { b with ops, rounds, groups, usage }) :
    b.ScheduledAs fits f g b' := by
  have huses {key : Nat} (hkey : f.size ≤ key ∨ ∃ o ∈ b.ops, ∃ q ∈ o.registers,
      key = f.slotKey q) : f.size ≤ key ∨ b.Uses f key := by
    rcases hkey with hnew | ⟨o, ho, q, hq, heq⟩
    · exact .inl hnew
    · exact .inr (.inl ⟨o, ho, q, hq, heq.symm⟩)
  rcases hjump with hops | ⟨exit, jump, hexit, hjump, hops⟩
  · refine ⟨hrest, ?_, ?_, ?_⟩
    · rw [hops]
      exact fun op hop => ⟨h.owned op hop, hinst op hop⟩
    · rw [hops]
      exact fun hfits op hop r hr => huses (h.keys hfits op hop r hr)
    · rw [hops]
      exact fun hfits hhonest key hlt hexp => .inl (h.reads hfits hhonest hlt hexp)
  · obtain ⟨howned, haccesses⟩ := of_exitJump_eq_ok hjump
    have hbind : b.exit.bind (·.kind.condition?) = exit.kind.condition? := by
      rw [hexit]
      rfl
    have hcond {r : Reg} (hr : r ∈ (Op.inst jump).registers) :
        b.exit.bind (·.kind.condition?) = some r ∧ g.slotKey r = f.slotKey r := by
      rw [Op.registers, haccesses] at hr
      have hr' : exit.kind.condition? = some r := by simpa using hr
      rw [← hbind] at hr'
      exact ⟨hr', hg.ext.slotKey hf (owns_iff.1 (hb.exit r hr').owns).2⟩
    refine ⟨hrest, ?_, ?_, ?_⟩
    · rw [hops]
      intro op hop
      rcases mem_append.1 hop with hop | hop
      · exact ⟨h.owned op hop, hinst op hop⟩
      · rw [mem_singleton.1 hop]
        exact ⟨howned, rfl⟩
    · rw [hops]
      intro hfits op hop r hr
      rcases mem_append.1 hop with hop | hop
      · exact huses (h.keys hfits op hop r hr)
      · rw [mem_singleton.1 hop] at hr
        obtain ⟨hr', hkey⟩ := hcond hr
        exact .inr (.inr ⟨r, hr', hkey.symm⟩)
    · rw [hops]
      intro hfits hhonest key hlt hexp
      rcases exposes_append.1 hexp with hexp | ⟨hnot, hexp⟩
      · exact .inl (h.reads hfits hhonest hlt hexp)
      · obtain ⟨_, hop, r, hr, rfl⟩ := exists_reads_of_exposes hexp
        rw [mem_singleton.1 hop] at hr
        obtain ⟨hr', hkey⟩ := hcond (Op.mem_registers_of_mem_reads hr)
        refine .inr ⟨?_, r, hr', hkey.symm⟩
        -- the slot is wanted at the end, so an operation that writes it would have been kept
        intro op hop hw
        have hwanted : g.slotKey r ∈ b.liveOut f := by
          rw [hkey, Block.liveOut, hr']
          exact mem_singleton_self _
        obtain ⟨o, ho, hw'⟩ := h.writes hfits hhonest hwanted hop hw
        exact hnot o ho hw'

variable {index : BlockId}

theorem tapeAt_clear (hid : id < p.tapes.size) (hindex : index < (p.tapeAt id).blocks.size)
    {q : Program} (hq : q = p.modifyTape id fun t => t.modifyBlock index ({ · with ops := [] })) :
    (q.tapeAt id).regs = (p.tapeAt id).regs ∧
      (q.tapeAt id).block index = { (p.tapeAt id).block index with ops := [] } := by
  rw [hq, tapeAt_modifyTape_self hid, Tape.block_modifyBlock, if_pos ⟨rfl, hindex⟩]
  exact ⟨rfl, rfl⟩

section ScheduledBlock

variable (options) (hp : p.Coherent) (hid : id < p.tapes.size)
  (hstate : (p.tapeAt id).state = .scheduled)

include hp hid hstate

theorem advances_setOps {rounds groups : Nat} {usage : Tally}
    (hops : ∀ op ∈ ops, op.Owned (p.tapeAt id).regs ∧ op.inst?.isSome) :
    Advances id (· = index) p (p.modifyTape id fun t => t.modifyBlock index fun b =>
      { b with ops, rounds, groups, usage }) := by
  refine .edit hp hid (.setOps hstate hops) (Tape.size_modifyBlock ..) ?_ rfl
    (hp.sound hid).valid.grows
  intro i hi
  rw [Tape.block_modifyBlock, if_neg fun h => hi h.1]

theorem advances_clear (index : BlockId) :
    Advances id (· = index) p (p.modifyTape id fun t =>
      t.modifyBlock index ({ · with ops := [] })) := by
  refine .edit hp hid ?_ (Tape.size_modifyBlock ..) ?_ rfl (hp.sound hid).valid.grows
  · rw [Tape.modifyBlock_congr (g := fun b => { b with
      ops := [], rounds := ((p.tapeAt id).block index).rounds
      groups := ((p.tapeAt id).block index).groups
      usage := ((p.tapeAt id).block index).usage }) rfl]
    exact .setOps hstate nofun
  · intro i hi
    rw [Tape.block_modifyBlock, if_neg fun h => hi h.1]

variable (hindex : index < (p.tapeAt id).blocks.size)

include hindex

theorem meets_storeBlock {fits : Prop} {result : List Op × MergeStats}
    (hblock : (p.tapeAt id).block index = { b with ops := [] }) (hf : f.Valid)
    (hg : Grows f (p.tapeAt id).regs) (hb : b.Sound f)
    (h : StandsFor fits (· ∈ b.liveOut f) f (p.tapeAt id).regs b.ops result.1)
    (hinst : ∀ op ∈ result.1, op.inst?.isSome) :
    Meets (Advances id (· = index)) (storeBlock id index b result) p fun _ q =>
      b.ScheduledAs fits f (q.tapeAt id).regs ((q.tapeAt id).block index) := by
  refine .bind (meets_appendJump hp hid _ result.1) ?_
  rintro ops q - ⟨hq, hjump⟩
  subst q
  have hscheduled : b.ScheduledAs fits f (p.tapeAt id).regs { b with
      ops, rounds := result.2.rounds, groups := result.2.groups
      usage := blockUsage ops result.2 } :=
    scheduledAs_of_standsFor hf hg hb h hinst hjump ⟨_, _, _, _, rfl⟩
  have hstore : Advances id (· = index) p (p.modifyTape id fun t => t.modifyBlock index fun b =>
      { b with
        ops, rounds := result.2.rounds, groups := result.2.groups
        usage := blockUsage ops result.2 }) :=
    advances_setOps hp hid hstate hscheduled.owned
  refine .modify_bind hstore (.of_run_ok (run_onTree _ _)
    (advances_tree hstore.coherent (hstore.lt hid) _) ?_)
  show Block.ScheduledAs _ _ ((p.modifyTape id _).tapeAt id).regs _
    (((p.modifyTape id _).tapeAt id).block index)
  rw [tapeAt_modifyTape_self hid, Tape.block_modifyBlock, if_pos ⟨rfl, hindex⟩, hblock]
  exact hscheduled

/-- What is made of a block whose operations have been taken out of the tape. -/
theorem meets_optimizeCleared
    {q : Program} (hq : q = p.modifyTape id fun t => t.modifyBlock index ({ · with ops := [] })) :
    Meets (Advances id touched)
      (optimizeBlock id options (p.tapeAt id).regs ((p.tapeAt id).block index)) q fun result m =>
        StandsFor (∀ c, .call c ∈ ((p.tapeAt id).block index).ops → c.Fits q)
          (· ∈ ((p.tapeAt id).block index).liveOut (p.tapeAt id).regs) (p.tapeAt id).regs
          (m.tapeAt id).regs ((p.tapeAt id).block index).ops result.1 ∧
            ∀ op ∈ result.1, op.inst?.isSome = true := by
  have hclear := advances_clear hp hid hstate index
  obtain ⟨hregs, -⟩ := tapeAt_clear hid hindex hq
  rw [← hq] at hclear
  rw [← hregs]
  exact meets_optimizeBlock options hclear.coherent (hclear.lt hid)
    (.inr (hclear.state.trans hstate)) (hregs ▸ ((hp.sound hid).block index).ops)
    fun c hc => hclear.macros ▸ hp.cached hid ⟨index, hc⟩

theorem meets_scheduleBlock :
    Meets (Advances id (· = index)) (scheduleBlock id options index) p fun _ q =>
      ((p.tapeAt id).block index).ScheduledAs
        (∀ c, .call c ∈ ((p.tapeAt id).block index).ops → c.Fits p)
        (p.tapeAt id).regs (q.tapeAt id).regs ((q.tapeAt id).block index) := by
  have hb := (hp.sound hid).block index
  have hclear := advances_clear hp hid hstate index
  rw [scheduleBlock_eq]
  refine .get_bind (.modify_bind hclear ?_)
  generalize hp₁ : p.modifyTape id (fun t => t.modifyBlock index ({ · with ops := [] })) = p₁
    at hclear
  obtain ⟨hregs, hblock⟩ := tapeAt_clear hid hindex hp₁.symm
  have hopt : Meets (Advances id fun _ => False) _ p₁ _ :=
    meets_optimizeCleared options hp hid hstate hindex hp₁.symm
  refine .bind (hopt.weaken fun _ h => h.mono fun _ => False.elim) ?_
  rintro result q - ⟨hq, hstands, hinst⟩
  refine meets_storeBlock hq.coherent (hq.lt (hclear.lt hid))
    (hq.state.trans (hclear.state.trans hstate)) (hq.size ▸ hclear.size ▸ hindex)
    ((hq.block not_false).trans hblock) (hp.sound hid).valid (hregs ▸ hq.regs) hb ?_ hinst
  exact hstands.of_imp fun hfits c hc => hclear.fits (hp.cached hid ⟨index, hc⟩) (hfits c hc)

end ScheduledBlock

/-! ## Tapes -/

theorem meets_scheduleBlocks (options : MergeOptions) (ks : List BlockId) (hp : p.Coherent)
    (hid : id < p.tapes.size) (hstate : (p.tapeAt id).state = .scheduled)
    (hks : ∀ k ∈ ks, k < (p.tapeAt id).blocks.size) :
    Meets (Advances id (· ∈ ks)) (ks.forM (scheduleBlock id options)) p fun _ _ => True := by
  induction ks generalizing p with
  | nil => exact .pure (hp.advances hid) trivial
  | cons k ks ih =>
    have hfirst := meets_scheduleBlock options hp hid hstate (hks k (.head _))
    refine .bind (hfirst.weaken fun _ h => h.mono ?_) ?_
    · rintro _ rfl
      exact .head _
    · rintro _ q - ⟨hq, -⟩
      have hrest := ih hq.coherent (hq.lt hid) (hq.state.trans hstate)
        fun k hk => hq.size.symm ▸ hks k (.tail _ hk)
      exact (hrest.weaken fun _ h => h.mono fun _ => mem_cons_of_mem _).forget

theorem forM_range_succ (act : Nat → BuildM PUnit) (n : Nat) :
    (List.range (n + 1)).forM act = (List.range n).forM act >>= fun _ => act n := by
  show ForM.forM (List.range (n + 1)) act = ForM.forM (List.range n) act >>= fun _ => act n
  rw [range_succ, forM_append]
  simp

def stateAt (id : TapeId) (options : MergeOptions) (p : Program) (k : Nat) : Program :=
  (((List.range k).forM (scheduleBlock id options)).run p).2

section Blocks

variable {options : MergeOptions} {n : Nat} {r : Program}
  (hrun : ((List.range n).forM (scheduleBlock id options)).run p = (.ok ⟨⟩, r))

include hrun

variable {k : Nat}

theorem run_stateAt (hk : k ≤ n) :
    ((List.range k).forM (scheduleBlock id options)).run p = (.ok ⟨⟩, stateAt id options p k) := by
  induction n generalizing r with
  | zero =>
    rw [Nat.le_zero.1 hk]
    rfl
  | succ n ih =>
    rcases Nat.le_succ_iff.1 hk with hk | rfl
    · rw [forM_range_succ] at hrun
      obtain ⟨_, q, hbefore, -⟩ := of_run_bind_ok hrun
      exact ih hbefore hk
    · rw [stateAt, hrun]

theorem run_scheduleBlock_stateAt (hk : k < n) :
    (scheduleBlock id options k).run (stateAt id options p k) =
      (.ok ⟨⟩, stateAt id options p (k + 1)) := by
  have hnext := run_stateAt hrun hk
  rwa [forM_range_succ, run_bind_ok (run_stateAt hrun (Nat.le_of_lt hk))] at hnext

variable (hp : p.Coherent) (hid : id < p.tapes.size) (hstate : (p.tapeAt id).state = .scheduled)
  (hn : n ≤ (p.tapeAt id).blocks.size)

include hp hid hstate hn

theorem advances_stateAt {i j : Nat} (hij : i ≤ j) (hj : j ≤ n) :
    Advances id (fun k => i ≤ k ∧ k < j) (stateAt id options p i) (stateAt id options p j) := by
  have hstart : Advances id (· ∈ List.range i) p (stateAt id options p i) := by
    have hrange := (meets_scheduleBlocks options (List.range i) hp hid hstate
      fun k hk => Nat.lt_of_lt_of_le (mem_range.1 hk) (by omega)).ends
    rwa [run_stateAt hrun (Nat.le_trans hij hj)] at hrange
  induction hij with
  | refl => exact hstart.coherent.advances (hstart.lt hid)
  | @step j hij ih =>
    have hbefore := ih (Nat.le_of_succ_le hj)
    have hstep := (meets_scheduleBlock options hbefore.coherent
      (hbefore.lt (hstart.lt hid)) (hbefore.state.trans (hstart.state.trans hstate))
      (hbefore.size ▸ hstart.size ▸ Nat.lt_of_lt_of_le hj hn)).ends
    rw [run_scheduleBlock_stateAt hrun hj] at hstep
    refine trans_of (Advances id _) (hbefore.mono ?_) (hstep.mono ?_)
    · intro k hk
      exact ⟨hk.1, Nat.lt_succ_of_lt hk.2⟩
    · rintro k rfl
      exact ⟨hij, Nat.lt_succ_self k⟩

theorem scheduledAs_stateAt (hk : k < n) :
    ((p.tapeAt id).block k).ScheduledAs (∀ c, .call c ∈ ((p.tapeAt id).block k).ops → c.Fits p)
      ((stateAt id options p k).tapeAt id).regs ((stateAt id options p (k + 1)).tapeAt id).regs
      ((r.tapeAt id).block k) := by
  have hfirst := advances_stateAt hrun hp hid hstate hn (Nat.zero_le k) (Nat.le_of_lt hk)
  have hlast := advances_stateAt hrun hp hid hstate hn hk (Nat.le_refl n)
  replace hfirst : Advances id (fun i => 0 ≤ i ∧ i < k) p (stateAt id options p k) := hfirst
  rw [show stateAt id options p n = r by rw [stateAt, hrun]] at hlast
  have hblock := (meets_scheduleBlock options hfirst.coherent (hfirst.lt hid)
    (hfirst.state.trans hstate) (hfirst.size ▸ Nat.lt_of_lt_of_le hk hn)).result _ _
    (run_scheduleBlock_stateAt hrun hk)
  rw [hfirst.block fun h => Nat.lt_irrefl k h.2] at hblock
  rw [hlast.block fun h => Nat.lt_irrefl k h.1]
  refine hblock.of_imp ?_
  intro hfits c hc
  exact hfirst.fits (hp.cached hid ⟨k, hc⟩) (hfits c hc)

end Blocks

/-- What is asked of the scheduler by the options of a program. -/
def mergeOptions (options : Options) : MergeOptions where
  mergeRounds := options.mergeRounds
  fullDeadCode := options.fullDeadCode

def scheduleBlocks (id : TapeId) : BuildM Unit := do
  let p ← get
  (List.range (p.tapeAt id).blocks.size).forM (scheduleBlock id (mergeOptions p.options))

theorem run_scheduleTape (hb : (p.tapeAt id).isBuilding) :
    (scheduleTape id).run p = (do
      checkScopes id
      modify fun p => p.modifyTape id closeTape
      scheduleBlocks id : BuildM Unit).run p := by
  have hdo : (scheduleTape id).run p = (if (p.tapeAt id).isBuilding then do
      checkScopes id
      modify fun p => p.modifyTape id closeTape
      scheduleBlocks id
    else pure ⟨⟩ : BuildM Unit).run p := rfl
  rw [hdo, if_pos hb]

theorem meets_checkScopes (hp : p.Coherent) (id : TapeId) :
    Meets Evolves (checkScopes id) p fun _ q => q = p ∧ (p.tapeAt id).scopes = [] := by
  refine .get_bind ?_
  simp only []
  split
  · exact .throw (.refl hp)
  · rename_i hscopes
    exact .pure (.refl hp) ⟨rfl, head?_eq_none_iff.1 hscopes⟩

theorem state_close (hid : id < p.tapes.size) :
    ((p.modifyTape id closeTape).tapeAt id).state = .scheduled := by
  rw [tapeAt_modifyTape_self hid]
  rfl

theorem blocks_close (hid : ¬id < p.tapes.size) :
    ((p.modifyTape id closeTape).tapeAt id).blocks = #[] := by
  rw [tapeAt_modifyTape, if_neg fun h => hid h.2, tapeAt]
  simp [Nat.le_of_not_lt hid]
  rfl

theorem evolves_close (hp : p.Coherent) (hb : (p.tapeAt id).isBuilding)
    (hscopes : (p.tapeAt id).scopes = []) : Evolves p (p.modifyTape id closeTape) :=
  hp.quietEdit fun _ => .close hb hscopes

theorem meets_closedBlocks (hp : p.Coherent) (hid : id < p.tapes.size)
    (hstate : (p.tapeAt id).state = .scheduled) :
    Meets (Advances id fun _ => True) (scheduleBlocks id) p fun _ _ => True := by
  have hblocks := meets_scheduleBlocks (mergeOptions p.options) _ hp hid hstate
    fun _ => mem_range.1
  exact .get_bind (hblocks.weaken fun _ h => h.mono fun _ _ => trivial).forget

theorem lawful_scheduleTape (id : TapeId) : Lawful (scheduleTape id) := by
  intro p hp
  unfold scheduleTape
  refine .get_bind (.ite (fun hb => ?_) fun _ => .pure (.refl hp) trivial)
  refine .bind (meets_checkScopes hp id) ?_
  rintro _ q - ⟨hq, hscopes⟩
  subst q
  have hclose := evolves_close hp hb hscopes
  refine .modify_bind hclose ?_
  show Meets Evolves (scheduleBlocks id) _ _
  by_cases hid : id < p.tapes.size
  · have hblocks := meets_closedBlocks hclose.coherent (hclose.lt hid)
      (state_close hid)
    exact (hblocks.weaken fun _ h => h.toEvolves).forget
  · refine .get_bind ?_
    rw [blocks_close hid]
    exact .pure (.refl hclose.coherent) trivial

end BuildM

end SecureTape
