import SecureTape.Proofs.Reachable

/-!
# Dead code and other blocks

Dead operations are dropped one block at a time; a slot that another block takes over is protected
from it. Main statements:
1. `Tape.Sound.protects_closeTape`: every slot that a block of a closed tape exposes is protected.
2. `BuildM.not_exposes_of_removes`: no other block exposes a slot that a dropped operation writes.
3. `BuildM.removes_exposed_element`: slots are protected as a whole, elements are not.
-/

namespace SecureTape

open Action RegisterFile Program

/-! ## Protection in a closed tape -/

variable {r : Reg} {k : BlockId} {j key : Nat} {f g : RegisterFile} {b : Block}

section Agree

theorem Block.Sound.exposes_iff (hb : b.Sound f)
    (h : ∀ r, f.owns r = true → g.slotKey r = f.slotKey r) : b.Exposes g key ↔ b.Exposes f key := by
  have hops (op : Op) (hop : op ∈ b.ops) (r : Reg) (hr : r ∈ op.registers) :
      g.slotKey r = f.slotKey r := h r ((hb.ops op hop).owns r hr)
  unfold Block.Exposes
  refine or_congr (SecureTape.Exposes.congr hops) (and_congr ?_ ?_)
  · refine forall₂_congr fun op hop => not_congr ?_
    refine exists_congr fun r => and_congr_right fun hr => ?_
    rw [hops op hop r (Op.mem_registers_of_mem_writes hr)]
  · refine exists_congr fun cond => and_congr_right fun hcond => ?_
    rw [h cond (hb.exit cond hcond).owns]

theorem Block.Sound.uses_iff (hb : b.Sound f) (h : ∀ r, f.owns r = true → g.slotKey r = f.slotKey r) :
    b.Uses g key ↔ b.Uses f key := by
  unfold Block.Uses
  refine or_congr ?_ ?_
  · refine exists_congr fun op => and_congr_right fun hop => ?_
    refine exists_congr fun r => and_congr_right fun hr => ?_
    rw [h r ((hb.ops op hop).owns r hr)]
  · refine exists_congr fun cond => and_congr_right fun hcond => ?_
    rw [h cond (hb.exit cond hcond).owns]

theorem Block.Exposes.uses (h : b.Exposes f key) : b.Uses f key := by
  rcases h with hops | ⟨-, hexit⟩
  · obtain ⟨op, hop, r, hr, hkey⟩ := exists_reads_of_exposes hops
    exact .inl ⟨op, hop, r, Op.mem_registers_of_mem_reads hr, hkey⟩
  · exact .inr hexit

theorem RegisterFile.Valid.slotKey_lt (hf : f.Valid) (hr : f.owns r) :
    f.slotKey r < f.size :=
  hf.keyOf_lt (hf.baseOf_lt (owns_iff.1 hr).2)

theorem Block.Sound.lt_of_uses (hb : b.Sound f) (hf : f.Valid) (h : b.Uses f key) : key < f.size := by
  rcases h with ⟨op, hop, r, hr, rfl⟩ | ⟨cond, hcond, rfl⟩
  · exact hf.slotKey_lt ((hb.ops op hop).owns r hr)
  · exact hf.slotKey_lt (hb.exit cond hcond).owns

end Agree

theorem Tape.Sound.protects_closeTape {t : Tape} (ht : t.Sound)
    (h : ((BuildM.closeTape t).block k).Exposes (BuildM.closeTape t).regs key) :
    (BuildM.closeTape t).regs.Protects key := by
  have hshape := t.sameShape_closeTape
  have hk : k < t.blocks.size := by
    by_contra hk
    rw [Tape.block_of_size_le (by rw [Tape.size_closeTape]; exact Nat.le_of_not_lt hk)] at h
    obtain h | ⟨-, cond, hcond, -⟩ := h
    · cases h
    · cases hcond
  have hexposes : (t.closed.block k).Exposes t.regs key := by
    rw [Tape.block_closeTape t hk] at h
    exact ((ht.closed.block k).exposes_iff fun r _ => hshape.slotKey r).1 h
  have hmem : t.closed.block k ∈ t.closed.blocks.toList := by
    rw [← Tape.size_closed] at hk
    simp [Tape.block, hk]
  exact protects_inheritAll ht.valid hmem (ht.closed.block k).owned hexposes

namespace BuildM

variable {p q : Program} {id : TapeId} {options : MergeOptions} {op : Op}

/-! ## Dropped operations -/

/-- When a block is scheduled the operation is dropped as dead, on the registers of a file. Macro
calls are expanded after a first pass over the block, and then there is a second pass. -/
inductive Drops (id : TapeId) (options : MergeOptions) (p : Program) (k : BlockId) (op : Op) :
    RegisterFile → Prop
  | before (h : op ∈ deadOps (p.tapeAt id).regs options.fullDeadCode
      (((p.tapeAt id).block k).liveOut (p.tapeAt id).regs) ((p.tapeAt id).block k).ops) :
      Drops id options p k op (p.tapeAt id).regs
  | after {expanded : List Op} {q : Program}
      (hcalls : ((optimize (p.tapeAt id).regs options
        (((p.tapeAt id).block k).liveOut (p.tapeAt id).regs)
        ((p.tapeAt id).block k).ops).1.all (·.inst?.isSome)) = false)
      (hrun : (expandCalls id ((p.tapeAt id).block k).node (optimize (p.tapeAt id).regs options
        (((p.tapeAt id).block k).liveOut (p.tapeAt id).regs) ((p.tapeAt id).block k).ops).1).run
        (p.modifyTape id fun t => t.modifyBlock k ({ · with ops := [] })) = (.ok expanded, q))
      (h : op ∈ deadOps (q.tapeAt id).regs options.fullDeadCode
        (((p.tapeAt id).block k).liveOut (p.tapeAt id).regs) expanded) :
      Drops id options p k op (q.tapeAt id).regs

theorem mem_of_mem_deadOps {regs : RegisterFile} {full : Bool} {liveOut : List Nat} {ops : List Op}
    (h : op ∈ deadOps regs full liveOut ops) : op ∈ ops :=
  (perm_dropDead regs full liveOut ops).1.subset (List.mem_append_right _ h)

def KeepsRegisters (id : TapeId) (p q : Program) : Prop := (q.tapeAt id).regs = (p.tapeAt id).regs

instance : IsTrans Program (KeepsRegisters id) where
  trans _ _ _ hpq hqr := Eq.trans hqr hpq

theorem keepsRegisters_storeBlock (id : TapeId) (index : BlockId) (b : Block)
    (result : List Op × MergeStats) (p : Program) :
    Meets (KeepsRegisters id) (storeBlock id index b result) p fun _ _ => True := by
  have hjump : Meets (KeepsRegisters id) (appendJump id b.exit result.1) p fun _ _ => True := by
    unfold appendJump
    split
    · exact .pure rfl trivial
    · exact .get_bind (.liftM_bind rfl fun jump _ => .pure rfl trivial)
  refine .bind hjump fun ops q _ _ => .modify_bind ?_ (.of_run_ok (run_onTree _ _) rfl trivial)
  show ((q.modifyTape id _).tapeAt id).regs = _
  rw [tapeAt_modifyTape]
  split <;> rfl

/-- What is dropped from a block of a closed tape: it is dead, on slots that the block uses or that
came with its macro calls, and the registers stay when the block is done. -/
structure Dropped (fits : Prop) (f g h : RegisterFile) (b : Block) (op : Op) : Prop where
  grows : Grows f g
  size_le : g.size ≤ h.size
  owned : op.Owned g
  dead : ∃ full live, op.isDead g full live = true
  keys : fits → ∀ r ∈ op.registers, f.size ≤ g.slotKey r ∨ b.Uses f (g.slotKey r)

theorem dropped_of_drops (hp : p.Coherent) (hid : id < p.tapes.size)
    (hstate : (p.tapeAt id).state = .scheduled) (hk : k < (p.tapeAt id).blocks.size)
    (hrun : (scheduleBlock id options k).run p = (.ok ⟨⟩, q)) (h : Drops id options p k op g) :
    Dropped (∀ c, .call c ∈ ((p.tapeAt id).block k).ops → c.Fits p) (p.tapeAt id).regs g
      (q.tapeAt id).regs ((p.tapeAt id).block k) op := by
  have hb := (hp.sound hid).block k
  have hblock : Advances id (· = k) p q := by
    have hends := (meets_scheduleBlock options hp hid hstate hk).ends
    rwa [hrun] at hends
  cases h with
  | before h =>
    have hop := mem_of_mem_deadOps h
    obtain ⟨live, -, hdead⟩ := isDead_of_mem_deadOps h
    exact ⟨(hp.sound hid).valid.grows, hblock.regs.ext.size_le, hb.ops op hop, ⟨_, live, hdead⟩,
      fun _ r hr => .inr (.inl ⟨op, hop, r, hr, rfl⟩)⟩
  | @after expanded m hcalls hexpand h =>
    have hop := mem_of_mem_deadOps h
    obtain ⟨live, -, hdead⟩ := isDead_of_mem_deadOps h
    have hclear := advances_clear hp hid hstate k
    generalize hp₁ : p.modifyTape id (fun t => t.modifyBlock k ({ · with ops := [] })) = p₁
      at hclear hexpand
    obtain ⟨hregs, -⟩ := tapeAt_clear hid hk hp₁.symm
    have hmeets : Meets (Advances id fun _ => False) _ p₁ _ :=
      meets_expandBlock options hclear.coherent (hclear.lt hid)
        (.inr (hclear.state.trans hstate)) (hregs ▸ hb.ops)
        fun c hc => hclear.macros ▸ hp.cached hid ⟨k, hc⟩
    rw [hregs] at hmeets
    have hends := hmeets.ends
    rw [hexpand] at hends
    obtain ⟨hstands, -⟩ := hmeets.result _ _ hexpand
    refine ⟨hregs ▸ hends.regs, ?_, hstands.owned op hop, ⟨_, live, hdead⟩, ?_⟩
    · -- the block is stored on the registers that its expansion left
      rw [scheduleBlock_eq] at hrun
      have hopt : (optimizeBlock id options (p.tapeAt id).regs ((p.tapeAt id).block k)).run p₁ =
          (.ok (optimize (m.tapeAt id).regs options
            (((p.tapeAt id).block k).liveOut (p.tapeAt id).regs) expanded), m) := by
        unfold optimizeBlock
        simp only [hcalls, Bool.false_eq_true, if_false]
        rw [run_bind_ok hexpand]
        rfl
      rw [run_get_bind, run_bind_ok (run_modify _ p), hp₁,
        run_bind_ok hopt] at hrun
      have hstore := (keepsRegisters_storeBlock id k ((p.tapeAt id).block k)
        (optimize (m.tapeAt id).regs options
          (((p.tapeAt id).block k).liveOut (p.tapeAt id).regs) expanded) m).ends
      rw [hrun] at hstore
      exact Nat.le_of_eq (congrArg RegisterFile.size hstore).symm
    · intro hfits r hr
      have hfits' (c : MacroCall) (hc : .call c ∈ ((p.tapeAt id).block k).ops) : c.Fits p₁ :=
        hclear.fits (hp.cached hid ⟨k, hc⟩) (hfits c hc)
      rcases hstands.keys hfits' op hop r hr with hnew | ⟨o, ho, r', hr', heq⟩
      · exact .inl hnew
      · exact .inr (.inl ⟨o, ho, r', hr', heq.symm⟩)

theorem Dropped.not_writes {fits : Prop} {h : RegisterFile} (hd : Dropped fits f g h b op)
    (hf : f.Valid) (hkey : key < f.size) (hp : f.Protects key) : ¬op.Writes g.slotKey key := by
  intro hw
  obtain ⟨full, live, hdead⟩ := hd.dead
  have hprotects := hp.extends hf hd.grows.valid hd.grows.ext hkey
  rw [not_isDead_of_protects hd.grows.valid hd.owned.owns hprotects hw] at hdead
  cases hdead

/-! ## Tapes -/

/-- A tape is scheduled when its scopes are closed: it is closed itself, and its blocks are
scheduled one after the other. -/
theorem run_closed_of_run_scheduleTape (hp : p.Coherent) (hb : (p.tapeAt id).isBuilding)
    (hrun : (scheduleTape id).run p = (.ok ⟨⟩, q)) : (p.tapeAt id).scopes = [] ∧
      ((List.range ((p.modifyTape id closeTape).tapeAt id).blocks.size).forM
        (scheduleBlock id (mergeOptions p.options))).run (p.modifyTape id closeTape) =
          (.ok ⟨⟩, q) := by
  rw [run_scheduleTape hb] at hrun
  obtain ⟨_, m, hcheck, hrest⟩ := of_run_bind_ok hrun
  obtain ⟨rfl, hscopes⟩ := (meets_checkScopes hp id).result _ _ hcheck
  exact ⟨hscopes, hrest⟩

/-- When a tape is scheduled the operation is dropped from a block as dead, on the registers of a
file. -/
def Removes (p : Program) (id : TapeId) (k : BlockId) (op : Op) (g : RegisterFile) : Prop :=
  Drops id (mergeOptions p.options)
    (stateAt id (mergeOptions p.options) (p.modifyTape id closeTape) k) k op g

/-- The macro calls in a tape have the arguments that their templates take, and the templates do
with them what their signatures say. -/
def Faithful (p : Program) (id : TapeId) : Prop :=
  ∀ k c, .call c ∈ ((p.tapeAt id).block k).ops → c.Fits p ∧ c.template.Honest

section ClosedTape

/-! A coherent program with a closed tape, whose blocks have been scheduled. The state when the
first `k` of them are done is `stateAt id options p k`. -/

variable {n : Nat} {a b : BlockId}
  (hrun : ((List.range n).forM (scheduleBlock id options)).run p = (.ok ⟨⟩, q))
  (hp : p.Coherent) (hid : id < p.tapes.size) (hstate : (p.tapeAt id).state = .scheduled)
  (hn : n ≤ (p.tapeAt id).blocks.size)

include hrun hp hid hstate hn

theorem grows_stateAt {i : Nat} (hij : i ≤ j) (hj : j ≤ n) :
    Grows ((stateAt id options p i).tapeAt id).regs ((stateAt id options p j).tapeAt id).regs :=
  (advances_stateAt hrun hp hid hstate hn hij hj).regs

theorem dropped_stateAt (ha : a < n) (hdrop : Drops id options (stateAt id options p a) a op g) :
    Dropped (∀ c, .call c ∈ ((p.tapeAt id).block a).ops → c.Fits p)
      ((stateAt id options p a).tapeAt id).regs g ((stateAt id options p (a + 1)).tapeAt id).regs
      ((p.tapeAt id).block a) op := by
  have hfirst : Advances id (fun k => 0 ≤ k ∧ k < a) p (stateAt id options p a) :=
    advances_stateAt hrun hp hid hstate hn (Nat.zero_le a) (Nat.le_of_lt ha)
  have hdropped := dropped_of_drops hfirst.coherent (hfirst.lt hid)
    (hfirst.state.trans hstate) (hfirst.size ▸ Nat.lt_of_lt_of_le ha hn)
    (run_scheduleBlock_stateAt hrun ha) hdrop
  rw [hfirst.block fun h => Nat.lt_irrefl a h.2] at hdropped
  refine ⟨hdropped.grows, hdropped.size_le, hdropped.owned, hdropped.dead, ?_⟩
  intro hfits
  exact hdropped.keys fun c hc => hfirst.fits (hp.cached hid ⟨a, hc⟩) (hfits c hc)

theorem slotKey_stateAt (hj : j ≤ n) (hr : (p.tapeAt id).regs.owns r) :
    ((stateAt id options p j).tapeAt id).regs.slotKey r = (p.tapeAt id).regs.slotKey r :=
  (grows_stateAt hrun hp hid hstate hn j.zero_le hj).ext.slotKey (hp.sound hid).valid
    (owns_iff.1 hr).2

/-- What a scheduled block exposes was exposed in the closed tape, or it came with the expansion of
its macro calls. -/
theorem exposes_closed_or_new (hmacros : Faithful p id) (hb : b < n)
    (hexp : SecureTape.Exposes (q.tapeAt id).regs.slotKey key ((q.tapeAt id).block b).ops) :
    ((p.tapeAt id).block b).Exposes (p.tapeAt id).regs key ∨
      ((stateAt id options p b).tapeAt id).regs.size ≤ key ∧
        key < ((stateAt id options p (b + 1)).tapeAt id).regs.size := by
  have hscheduled := scheduledAs_stateAt hrun hp hid hstate hn hb
  have hlast := grows_stateAt hrun hp hid hstate hn hb (Nat.le_refl n)
  rw [show stateAt id options p n = q by rw [stateAt, hrun]] at hlast
  have hvalid := (grows_stateAt hrun hp hid hstate hn (Nat.zero_le (b + 1)) hb).valid
  -- the registers of the block are those that were there when it was done
  have howns (o : Op) (ho : o ∈ ((q.tapeAt id).block b).ops) (r : Reg) (hr : r ∈ o.registers) :=
    (hscheduled.owned o ho).1.owns r hr
  rw [SecureTape.Exposes.congr fun o ho r hr =>
    hlast.ext.slotKey hvalid (owns_iff.1 (howns o ho r hr)).2] at hexp
  rcases Nat.lt_or_ge key ((stateAt id options p b).tapeAt id).regs.size with hold | hnew
  · have hexposes := hscheduled.reads (fun c hc => (hmacros b c hc).1)
      (fun c hc => (hmacros b c hc).2) hold hexp
    exact .inl ((((hp.sound hid).block b).exposes_iff fun r hr =>
      slotKey_stateAt hrun hp hid hstate hn (Nat.le_of_lt hb) hr).1 hexposes)
  · obtain ⟨o, ho, r, hr, rfl⟩ := exists_reads_of_exposes hexp
    exact .inr ⟨hnew, hvalid.slotKey_lt (howns o ho r (Op.mem_registers_of_mem_reads hr))⟩

theorem uses_closed_or_new (hmacros : Faithful p id) (ha : a < n)
    (hdrop : Drops id options (stateAt id options p a) a op g) (hw : op.Writes g.slotKey key) :
    ((p.tapeAt id).block a).Uses (p.tapeAt id).regs key ∨
      ((stateAt id options p a).tapeAt id).regs.size ≤ key ∧
        key < ((stateAt id options p (a + 1)).tapeAt id).regs.size := by
  have hdropped := dropped_stateAt hrun hp hid hstate hn ha hdrop
  obtain ⟨r, hr, rfl⟩ := hw
  have hr := Op.mem_registers_of_mem_writes hr
  rcases hdropped.keys (fun c hc => (hmacros a c hc).1) r hr with hnew | huses
  · have hlt := hdropped.grows.valid.slotKey_lt (hdropped.owned.owns r hr)
    exact .inr ⟨hnew, Nat.lt_of_lt_of_le hlt hdropped.size_le⟩
  · exact .inl ((((hp.sound hid).block a).uses_iff fun r hr =>
      slotKey_stateAt hrun hp hid hstate hn (Nat.le_of_lt ha) hr).1 huses)

/-- If all slots that blocks of the closed tape expose are protected, what is dropped from one block
is not exposed in another. -/
theorem not_exposes_of_drops (hmacros : Faithful p id)
    (hprotects : ∀ {k key}, ((p.tapeAt id).block k).Exposes (p.tapeAt id).regs key →
      (p.tapeAt id).regs.Protects key) (ha : a < n) (hb : b < n) (hab : a ≠ b)
    (hdrop : Drops id options (stateAt id options p a) a op g) (hw : op.Writes g.slotKey key) :
    ¬SecureTape.Exposes (q.tapeAt id).regs.slotKey key ((q.tapeAt id).block b).ops := by
  intro hexp
  have hvalid := (hp.sound hid).valid
  have hgrows {i j : Nat} (hij : i ≤ j) (hj : j ≤ n) :=
    grows_stateAt hrun hp hid hstate hn hij hj
  rcases exposes_closed_or_new hrun hp hid hstate hn hmacros hb hexp with hold | ⟨hge, hlt⟩
  · have hkey := ((hp.sound hid).block b).lt_of_uses hvalid hold.uses
    have hbefore := hgrows (Nat.zero_le a) (Nat.le_of_lt ha)
    have hprotected := (hprotects hold).extends hvalid hbefore.valid hbefore.ext hkey
    exact (dropped_stateAt hrun hp hid hstate hn ha hdrop).not_writes hbefore.valid
      (Nat.lt_of_lt_of_le hkey hbefore.ext.size_le) hprotected hw
  · -- a slot that came with one block is not used in those before it, nor new in those after it
    refine Nat.lt_irrefl key ?_
    rcases uses_closed_or_new hrun hp hid hstate hn hmacros ha hdrop hw with huses | ⟨hge', hlt'⟩
    · calc key
        _ < (p.tapeAt id).regs.size := ((hp.sound hid).block a).lt_of_uses hvalid huses
        _ ≤ _ := (hgrows (Nat.zero_le b) (Nat.le_of_lt hb)).ext.size_le
        _ ≤ key := hge
    · rcases Nat.lt_or_gt_of_ne hab with hlater | hlater
      · have hle := (hgrows hlater (Nat.le_of_lt hb)).ext.size_le
        exact Nat.lt_of_lt_of_le hlt' (Nat.le_trans hle hge)
      · have hle := (hgrows hlater (Nat.le_of_lt ha)).ext.size_le
        exact Nat.lt_of_lt_of_le hlt (Nat.le_trans hle hge')

end ClosedTape

theorem faithful_of_instructions
    (h : ∀ b ∈ (p.tapeAt id).blocks.toList, ∀ op ∈ b.ops, op.inst?.isSome) : Faithful p id := by
  intro k c hc
  by_cases hk : k < (p.tapeAt id).blocks.size
  · have hmem : (p.tapeAt id).block k ∈ (p.tapeAt id).blocks.toList := by
      simp [Tape.block, hk]
    cases h _ hmem _ hc
  · rw [Tape.block_of_size_le (Nat.le_of_not_lt hk)] at hc
    cases hc

/-- No other block reads a slot that a dropped operation writes, except after it has written the
slot itself. -/
theorem not_exposes_of_removes (hp : p.Reachable) (hid : id < p.tapes.size)
    (hb : (p.tapeAt id).isBuilding = true)
    (hmacros : Faithful (p.modifyTape id closeTape) id)
    (hrun : (scheduleTape id).run p = (.ok ⟨⟩, q)) {a b : BlockId}
    (ha : a < (p.tapeAt id).blocks.size) (hab : a ≠ b) (hdrop : Removes p id a op g)
    (hw : op.Writes g.slotKey key) :
    ¬SecureTape.Exposes (q.tapeAt id).regs.slotKey key ((q.tapeAt id).block b).ops := by
  obtain ⟨hscopes, hblocks⟩ := run_closed_of_run_scheduleTape hp.coherent hb hrun
  have hclose := evolves_close hp.coherent hb hscopes
  have hclosed := tapeAt_modifyTape_self hid closeTape
  have hstate := state_close hid
  have hsize : ((p.modifyTape id closeTape).tapeAt id).blocks.size = (p.tapeAt id).blocks.size := by
    rw [hclosed, Tape.size_closeTape]
  have hprotects : ∀ {k key}, (((p.modifyTape id closeTape).tapeAt id).block k).Exposes
      ((p.modifyTape id closeTape).tapeAt id).regs key →
        ((p.modifyTape id closeTape).tapeAt id).regs.Protects key := by
    rw [hclosed]
    exact (hp.coherent.sound hid).protects_closeTape
  have hidc := hclose.lt hid
  by_cases hlt : b < (p.tapeAt id).blocks.size
  · rw [← hsize] at ha hlt
    exact not_exposes_of_drops hblocks hclose.coherent hidc hstate (Nat.le_refl _) hmacros hprotects
      ha hlt hab hdrop hw
  · -- there is no such block
    have hall := advances_stateAt hblocks hclose.coherent hidc hstate (Nat.le_refl _)
      (Nat.zero_le _) (Nat.le_refl _)
    rw [stateAt, stateAt, hblocks] at hall
    have hnone : (q.tapeAt id).blocks.size ≤ b := by
      rw [hall.size]
      exact hsize ▸ Nat.le_of_not_lt hlt
    rw [Tape.block_of_size_le hnone]
    exact not_false

/-! ## Elements -/

/-- Two blocks write an element of a vector each, and the second one reads the whole vector. -/
def scatteredWrites : BuildM Unit := do
  let vector ← newVector .int 2
  let first ← view vector 0 1
  let second ← view vector 1 1
  loadInt second 5
  beginFunction
  loadInt first 3
  storeMemory vector 0
  endFunction

theorem api_scatteredWrites : scatteredWrites.Api :=
  .bind (.newVector ..) fun _ => .bind (.view ..) fun _ => .bind (.view ..) fun _ =>
    .bind (.loadInt ..) fun _ => .bind .beginFunction fun _ => .bind (.loadInt ..) fun _ =>
      .bind (.storeMemory ..) fun _ => .endFunction

/-- The load of the second element, which is dropped from the first block. -/
def droppedLoad : Op := .inst ⟨.ldint, .base, 1, [.reg ⟨0, 2⟩, .number 5]⟩

theorem run_scatteredWrites : (scheduleTape 0).run (builtBy scatteredWrites) =
    (.ok ⟨⟩, ((scheduleTape 0).run (builtBy scatteredWrites)).2) :=
  Prod.ext (by decide +kernel) rfl

theorem removes_scatteredWrites : Removes (builtBy scatteredWrites) 0 0 droppedLoad
    (((builtBy scatteredWrites).modifyTape 0 closeTape).tapeAt 0).regs :=
  .before (by decide +kernel)

theorem faithful_scatteredWrites : Faithful ((builtBy scatteredWrites).modifyTape 0 closeTape) 0 :=
  faithful_of_instructions (by decide +kernel)

/-- The second block reads the slot of the load that is dropped from the first, but it has written
an element of that slot before. -/
theorem not_exposes_of_removes_scattered :
    droppedLoad.Writes (((builtBy scatteredWrites).modifyTape 0 closeTape).tapeAt 0).regs.slotKey 0 ∧
      ¬SecureTape.Exposes (((scheduleTape 0).run (builtBy scatteredWrites)).2.tapeAt 0).regs.slotKey
        0 ((((scheduleTape 0).run (builtBy scatteredWrites)).2.tapeAt 0).block 1).ops := by
  have hwrites : droppedLoad.Writes
      (((builtBy scatteredWrites).modifyTape 0 closeTape).tapeAt 0).regs.slotKey 0 := by
    decide +kernel
  exact ⟨hwrites, not_exposes_of_removes (reachable_builtBy api_scatteredWrites) (by decide +kernel)
    (by decide +kernel) faithful_scatteredWrites run_scatteredWrites (by decide +kernel)
    Nat.zero_ne_one removes_scatteredWrites hwrites⟩

/-- Marks the registers that have the element at a position of a slot. -/
def marks (f : RegisterFile) (key i : Nat) (r : Reg) : Nat :=
  if f.slotKey r = key ∧ (f.resolve r).2 ≤ i ∧ i < (f.resolve r).2 + f.sizeOf r then 1 else 0

/-- Protection is per slot: an operation can be dropped although another block reads an element that
it writes, and does not write that element before. -/
theorem removes_exposed_element : ∃ (p q : Program) (op : Op) (g : RegisterFile),
    p.Reachable ∧ (p.tapeAt 0).isBuilding = true ∧ Faithful (p.modifyTape 0 closeTape) 0 ∧
      (scheduleTape 0).run p = (.ok ⟨⟩, q) ∧ Removes p 0 0 op g ∧ op.Writes (marks g 0 1) 1 ∧
        SecureTape.Exposes (marks (q.tapeAt 0).regs 0 1) 1 ((q.tapeAt 0).block 1).ops := by
  refine ⟨builtBy scatteredWrites, _, droppedLoad, _, reachable_builtBy api_scatteredWrites,
    by decide +kernel, faithful_scatteredWrites, run_scatteredWrites, removes_scatteredWrites, ?_, ?_⟩
  · decide +kernel
  · decide +kernel

end BuildM

end SecureTape
