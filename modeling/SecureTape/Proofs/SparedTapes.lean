import SecureTape.Proofs.RequirementCoverage

/-!
# What compiling a tape leaves alone

Main statement: `Program.Spares`, compiling a tape changes no other tape, and the tapes that it adds
are still being built. It holds for scheduling (`BuildM.spares_scheduleTape`) and allocation
(`BuildM.spares_ensureAllocated`), whether they fail or not.
-/

open SecureTape.Action

namespace SecureTape

open Program

/-! ## Spared tapes -/

variable {id other : TapeId} {p : Program}

namespace Program

/-- The program `q` has the tapes of `p` but for the one with number `id`; tapes that were added are
being built, and call no macros. -/
structure Spares (p : Program) (id : TapeId) (q : Program) : Prop where
  size_le : p.tapes.size ≤ q.tapes.size
  tape : ∀ j, j < p.tapes.size → j ≠ id → q.tapeAt j = p.tapeAt j
  born : ∀ j, p.tapes.size ≤ j → j < q.tapes.size → (q.tapeAt j).isBuilding = true
  plain : ∀ j, p.tapes.size ≤ j → j < q.tapes.size → ∀ c, ¬ (q.tapeAt j).Calls c

variable {q r : Program}

namespace Spares

theorem refl (p : Program) (id : TapeId) : Spares p id p :=
  ⟨le_rfl, fun _ _ _ => rfl, fun _ hj hlt => absurd hlt (Nat.not_lt.2 hj),
    fun _ hj hlt => absurd hlt (Nat.not_lt.2 hj)⟩

theorem aside (h : Spares p id q) (htapes : r.tapes = q.tapes) : Spares p id r := by
  have htape (j : TapeId) : r.tapeAt j = q.tapeAt j := by rw [tapeAt, htapes, tapeAt]
  refine ⟨htapes ▸ h.size_le, fun j hj hne => ?_, fun j hj hlt => ?_, fun j hj hlt => ?_⟩
  · rw [htape]
    exact h.tape j hj hne
  · rw [htape]
    exact h.born j hj (htapes ▸ hlt)
  · rw [htape]
    exact h.plain j hj (htapes ▸ hlt)

theorem modifyTape (h : Spares p id q) (hid : id < p.tapes.size) (f : Tape → Tape) :
    Spares p id (q.modifyTape id f) := by
  have hsame {j : TapeId} (hj : p.tapes.size ≤ j) : (q.modifyTape id f).tapeAt j = q.tapeAt j := by
    rw [tapeAt_modifyTape, if_neg fun heq => ne_of_gt (hid.trans_le hj) heq.1]
  refine ⟨(size_modifyTape ..).symm ▸ h.size_le, fun j hj hne => ?_, fun j hj hlt => ?_,
    fun j hj hlt => ?_⟩
  · rw [tapeAt_modifyTape, if_neg fun heq => hne heq.1]
    exact h.tape j hj hne
  · rw [hsame hj]
    exact h.born j hj (size_modifyTape .. ▸ hlt)
  · rw [hsame hj]
    exact h.plain j hj (size_modifyTape .. ▸ hlt)

theorem modifyBorn (h : Spares p id q) (hother : p.tapes.size ≤ other) {f : Tape → Tape}
    (hf : (f (q.tapeAt other)).state = (q.tapeAt other).state)
    (hcalls : ∀ c, (f (q.tapeAt other)).Calls c → (q.tapeAt other).Calls c) :
    Spares p id (q.modifyTape other f) := by
  refine ⟨(size_modifyTape ..).symm ▸ h.size_le, fun j hj hne => ?_, fun j hj hlt => ?_,
    fun j hj hlt => ?_⟩
  · rw [tapeAt_modifyTape, if_neg fun heq => ne_of_lt (hj.trans_le hother) heq.1]
    exact h.tape j hj hne
  · rw [size_modifyTape] at hlt
    rw [tapeAt_modifyTape]
    split
    · rename_i heq
      have hborn := h.born other hother heq.2
      rwa [Tape.isBuilding, hf]
    · exact h.born j hj hlt
  · rw [size_modifyTape] at hlt
    rw [tapeAt_modifyTape]
    split
    · rename_i heq
      exact fun c hc => h.plain other hother heq.2 c (hcalls c hc)
    · exact h.plain j hj hlt

theorem push (h : Spares p id q) {t : Tape} (ht : t.isBuilding) (hcalls : ∀ c, ¬ t.Calls c) :
    Spares p id { q with tapes := q.tapes.push t } := by
  have hlt {j : TapeId} (hj : j < (q.tapes.push t).size) (hne : j ≠ q.tapes.size) :
      j < q.tapes.size := by
    rw [Array.size_push] at hj
    exact lt_of_le_of_ne (Nat.le_of_lt_succ hj) hne
  refine ⟨?_, fun j hj hne => ?_, fun j hj hjlt => ?_, fun j hj hjlt => ?_⟩
  · rw [Array.size_push]
    exact Nat.le_succ_of_le h.size_le
  · rw [tapeAt_push, if_neg (ne_of_lt (hj.trans_le h.size_le))]
    exact h.tape j hj hne
  · rw [tapeAt_push]
    split
    · exact ht
    · exact h.born j hj (hlt hjlt ‹_›)
  · rw [tapeAt_push]
    split
    · exact hcalls
    · exact h.plain j hj (hlt hjlt ‹_›)

end Spares

end Program

namespace BuildM

/-! ## Macro calls -/

theorem spares_onTree {α : Type} (f : RequirementTree → α × RequirementTree) :
    Maintains (Spares p id) (onTree f) :=
  fun _ h => h.aside rfl

theorem fills_born (hother : p.tapes.size ≤ other) : Fills (Spares p id) other where
  note h hf := h.modifyBorn hother (by rw [hf]) fun c hc => by
    rw [hf] at hc
    exact hc
  push _ h := h.modifyBorn hother rfl fun c hc => hc.of_modifyBlock fun hop => by simpa using hop

theorem spares_macroTape (t : Template) (width : Nat) :
    Maintains (Spares p id) (macroTape t width) := by
  intro q h
  obtain ⟨full, root, tree, hrun⟩ := run_addTape (t.key.name ++ "-" ++ toString width) .function true q
  have hnew : Spares p id { q with
      tree, tapes := q.tapes.push (Tape.new q.tapes.size full .function true root) } :=
    Spares.push (q := { q with tree }) (h.aside rfl) rfl fun _ => Tape.not_calls_new
  rw [macroTape_eq, run_bind_ok hrun]
  exact (fills_born h.size_le).fillTape (fun _ h => h.aside rfl) _ hnew

section Own

variable (hid : id < p.tapes.size)

include hid

theorem fills_spares : Fills (Spares p id) id where
  note h _ := h.modifyTape hid _
  push _ h := h.modifyTape hid _

theorem spares_batchedCall (node : NodeId) (c : MacroCall) :
    Maintains (Spares p id) (batchedCall id node c) := by
  have hbatch (t : Template) (width : Nat) : Maintains (Spares p id) (batchTape t width) := by
    refine .get_bind fun q => ?_
    split
    · exact .pure _
    · refine (spares_macroTape t width).bind fun entry => ?_
      exact Maintains.bind (.modify fun _ h => h.aside rfl) fun _ => .pure _
  refine .get_bind fun q => ?_
  refine .ite _ .throw_bind ?_
  refine (hbatch _ _).bind fun entry => (fills_spares hid).onRegisters _ |>.bind fun code => ?_
  refine .get_bind fun _ => (spares_onTree _).discard.bind fun _ => ?_
  exact Maintains.bind (.modify fun _ h => h.modifyTape hid _) fun _ => .pure _

theorem expands_spares (node : NodeId) : Expands (Maintains (Spares p id)) id node where
  toSequential := sequential_maintains _
  onRegisters := (fills_spares hid).onRegisters
  addUsage _ _ := spares_onTree _
  batchedCall c := spares_batchedCall hid node c

/-! ## Scheduling -/

theorem spares_scheduleBlock (options : MergeOptions) (index : BlockId) :
    Maintains (Spares p id) (scheduleBlock id options index) := by
  rw [scheduleBlock_eq]
  refine .get_bind fun q => ?_
  refine Maintains.bind (.modify fun _ h => h.modifyTape hid _) fun _ => ?_
  refine ((expands_spares hid _).optimizeBlock options _).bind fun result => ?_
  exact (reads_appendJump _ _ _).maintains.bind fun ops => Maintains.bind
    (.modify fun _ h => h.modifyTape hid _) fun _ => spares_onTree _

theorem spares_scheduleTape : Maintains (Spares p id) (scheduleTape id) := by
  refine .get_bind fun q => .ite _ ?_ (.pure _)
  refine (reads_checkScopes id).maintains.bind fun _ => ?_
  refine Maintains.bind (.modify fun _ h => h.modifyTape hid _) fun _ => ?_
  exact .get_bind fun _ => .forM (spares_scheduleBlock hid _) _

/-! ## Allocation and bytecode -/

theorem spares_ensureAllocated : Maintains (Spares p id) (ensureAllocated id) := by
  refine .get_bind fun q => .ite _ ?_ (.pure _)
  rw [allocateTape_eq]
  refine .get_bind fun _ => (spares_onTree _).bind fun requirements => ?_
  refine .get_bind fun _ => .get_bind fun _ => ?_
  refine (Reads.liftM _).maintains.bind fun declared => ?_
  refine Maintains.bind (.modify fun _ h => h.modifyTape hid _) fun _ => ?_
  refine (Reads.liftM _).maintains.bind fun usage => ?_
  refine Maintains.bind (.modify fun _ h => h.modifyTape hid _) fun _ => ?_
  refine (Reads.liftM _).maintains.bind fun _ => ?_
  exact .modify fun _ h => h.modifyTape hid _

end Own

theorem spares_closeMain (hlt : mainTape < p.tapes.size) :
    Maintains (Spares p mainTape) closeMain :=
  (fills_spares hlt).closeMain fun _ h => h.modifyTape hlt _

end BuildM

end SecureTape
