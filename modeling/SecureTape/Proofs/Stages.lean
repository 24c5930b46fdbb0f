import SecureTape.Program.Compiled
import SecureTape.Proofs.QuietActions
import SecureTape.Proofs.Scheduling

/-!
# Stages of compiling

What holds of the parts of a stage holds of the stage, whether it is about failures too or not. Main
statements:
1. `Action.Sequential`: a property of actions that sequences inherit from their parts.
2. `BuildM.Fills.fillTape`, `BuildM.Fills.closeMain`: a property that bears new code on a tape holds
   when the tape is filled.
3. `BuildM.Expands.optimizeBlock`: the property holds of the expansion of macro calls if it holds of
   its parts.
4. `BuildM.Compiles.finalizeTape`, `BuildM.Compiles.finish`: it holds of compiling if it holds of
   the stages of single tapes.
-/

namespace SecureTape

open Action Program

/-! ## Sequences -/

variable {id : TapeId}

namespace Action

variable {σ α β : Type}

/-- Where the action succeeds, the property holds still. -/
def Preserves (I : σ → Prop) (act : Action σ α) : Prop :=
  ∀ s a t, I s → act.run s = (.ok a, t) → I t

namespace Preserves

variable {I : σ → Prop}

theorem of_reads {act : Action σ α} (h : Reads act) : Preserves I act := by
  intro s a t hs hrun
  rwa [h.run_eq hrun]

theorem bind {act : Action σ α} {k : α → Action σ β} (h : Preserves I act)
    (hk : ∀ a, Preserves I (k a)) : Preserves I (act >>= k) := by
  intro s b t hs hrun
  obtain ⟨a, m, hact, hrun⟩ := of_run_bind_ok hrun
  exact hk a m b t (h s a m hs hact) hrun

end Preserves

/-- Actions that only look at the state have the property, and sequences inherit it. -/
structure Sequential (P : {α : Type} → Action σ α → Prop) : Prop where
  reads : ∀ {α : Type} {act : Action σ α}, Reads act → P act
  bind : ∀ {α β : Type} {act : Action σ α} {k : α → Action σ β}, P act → (∀ a, P (k a)) →
    P (act >>= k)

theorem sequential_maintains (I : σ → Prop) : Sequential (Maintains I) :=
  ⟨Reads.maintains, Maintains.bind⟩

theorem sequential_preserves (I : σ → Prop) : Sequential (Preserves I) :=
  ⟨Preserves.of_reads, Preserves.bind⟩

namespace Sequential

variable {P : {α : Type} → Action σ α → Prop} (hP : Sequential P)

include hP

theorem pure (a : α) : P (Pure.pure a) := hP.reads (.pure a)

theorem get_bind {k : σ → Action σ β} (hk : ∀ s, P (k s)) : P (get >>= k) := hP.bind (hP.reads .get) hk

theorem forM {act : α → Action σ PUnit} (h : ∀ a, P (act a)) (xs : List α) : P (xs.forM act) := by
  induction xs with
  | nil => exact hP.pure _
  | cons x xs ih => exact hP.bind (h x) fun _ => ih

theorem mapM {act : α → Action σ β} (h : ∀ a, P (act a)) (xs : List α) : P (xs.mapM act) := by
  induction xs with
  | nil => exact hP.pure []
  | cons x xs ih =>
    rw [List.mapM_cons]
    exact hP.bind (h x) fun _ => hP.bind ih fun _ => hP.pure _

end Sequential

end Action

namespace BuildM

/-! ## Checks -/

theorem reads_checkScopes (id : TapeId) : Reads (checkScopes id) := by
  refine Reads.get.bind fun q => ?_
  simp only []
  split
  · exact .throw _
  · exact .pure _

theorem reads_appendJump (id : TapeId) (exit : Option Exit) (ops : List Op) :
    Reads (appendJump id exit ops) := by
  unfold appendJump
  split
  · exact .pure _
  · exact Reads.get.bind fun _ => (Reads.liftM _).bind fun _ => .pure _

theorem reads_collect {ts : List Tape} : Reads (ts.mapM finishedTape) := by
  refine Reads.mapM (fun t => ?_) ts
  unfold finishedTape
  split
  · exact .pure _
  · exact .throw _

/-! ## Code of one tape -/

/-- The property bears new registers, parameters and bit lengths of a tape, and instructions at the
end of its active block. -/
structure Fills (I : Program → Prop) (id : TapeId) : Prop where
  note : ∀ {p : Program} {f : Tape → Tape}, I p → (∀ t, f t =
    { t with regs := (f t).regs, params := (f t).params, bitLengths := (f t).bitLengths }) →
    I (p.modifyTape id f)
  push : ∀ {p : Program} (i : Instruction), I p →
    I (p.modifyTape id fun _ => (p.tapeAt id).append (.inst i))

/-- The code of a template and its requirements, on a tape for batches. -/
def fillTape (t : Template) (width : Nat) (id : TapeId) : BuildM (TapeId × List Reg) := do
  let params ← exportParams id width t.signature
  let code ← onRegisters id (t.expand params width)
  pushAll id code
  modify fun p => p.modifyTape id ({ · with bitLengths := t.bitLengths })
  let root := ((← get).tapeAt id).root
  onTree fun tree => ((), tree.addUsage root (t.extra.scale (.finite width)))
  return (id, params)

theorem macroTape_eq (t : Template) (width : Nat) : macroTape t width =
    addTape (t.key.name ++ "-" ++ toString width) .function true >>= fillTape t width := rfl

namespace Fills

variable {I : Program → Prop}

section Tape

variable (hI : Fills I id)

include hI

theorem onRegisters {α : Type} (act : RegisterM α) : Maintains I (onRegisters id act) :=
  fun _ h => hI.note h fun _ => rfl

theorem exportParams (width : Nat) (signature : MacroSignature) :
    Maintains I (exportParams id width signature) := by
  induction signature with
  | nil => exact .pure _
  | cons entry signature ih =>
    refine (hI.onRegisters _).bind fun r => ?_
    exact Maintains.bind (.modify fun _ h => hI.note h fun _ => rfl) fun _ =>
      ih.bind fun _ => .pure _

theorem append {p : Program} (h : I p) (i : Instruction) : I ((do
    let t ← (p.tapeAt id).push (.inst i)
    modify fun p => p.modifyTape id fun _ => t : BuildM Unit).run p).2 := by
  refine (Reads.liftM _).bind_cases I h fun t ht => ?_
  obtain ⟨-, -, rfl⟩ := of_push_eq_ok (congrArg Prod.fst ht)
  exact hI.push i h

theorem pushAll (is : List Instruction) : Maintains I (pushAll id is) := by
  refine Maintains.forM (fun i => Reads.get.maintains_bind fun p _ hp h => ?_) is
  cases hp
  exact hI.append h i

theorem fillTape {t : Template} {width : Nat} (husage : ∀ p, I p →
      I { p with tree := p.tree.addUsage (p.tapeAt id).root (t.extra.scale (.finite width)) }) :
    Maintains I (fillTape t width id) := by
  refine (hI.exportParams width t.signature).bind fun params => (hI.onRegisters _).bind fun code => ?_
  refine (hI.pushAll code).bind fun _ => ?_
  refine Maintains.bind (.modify fun _ h => hI.note h fun _ => rfl) fun _ => ?_
  refine Reads.get.maintains_bind fun p _ hp h => ?_
  cases hp
  exact husage p h

end Tape

theorem touchLastCell (hI : Fills I mainTape) (cls : RegisterClass) (top : Nat) :
    Maintains I (touchLastCell cls top) := by
  refine (hI.onRegisters _).bind fun r => Maintains.bind (.modify fun _ h => hI.note h fun _ => rfl)
    fun _ => Reads.get.maintains_bind fun p _ hp h => ?_
  cases hp
  exact (Reads.liftM _).bind_cases I h fun i _ => hI.append h i

theorem closeMain (hI : Fills I mainTape) (hstart : ∀ p, I p → I (p.modifyTape mainTape fun t =>
    (t.startBlock "memory-usage" none none t.root).2)) : Maintains I closeMain := by
  refine (reads_checkScopes mainTape).maintains.bind fun _ => .get_bind fun q =>
    .ite _ (.get_bind fun q => ?_) (.pure _)
  refine .ite _ (.pure _) (Maintains.bind (.modify hstart) fun _ => ?_)
  exact .forM (fun cls => hI.touchLastCell cls _) _

end Fills

/-! ## Macro calls -/

/-- The property holds of what the expansion of macro calls in a block consists of. -/
structure Expands (P : {α : Type} → BuildM α → Prop) (id : TapeId) (node : NodeId) : Prop
    extends Sequential P where
  onRegisters : ∀ {α : Type} (act : RegisterM α), P (onRegisters id act)
  addUsage : ∀ (usage : Tally) (n : Count),
    P (onTree fun tree => ((), tree.addUsage node (usage.scale n)))
  batchedCall : ∀ c : MacroCall, P (batchedCall id node c)

namespace Expands

variable {P : {α : Type} → BuildM α → Prop} {node : NodeId}

theorem inlineCall (hP : Expands P id node) (c : MacroCall) : P (inlineCall id node c) := by
  refine hP.bind (hP.mapM (fun site => ?_) c.sites) fun _ => hP.pure _
  exact hP.bind (hP.addUsage _ _) fun _ => hP.onRegisters _

theorem expandCalls (hP : Expands P id node) (ops : List Op) : P (expandCalls id node ops) := by
  induction ops with
  | nil => exact hP.pure _
  | cons op ops ih =>
    cases op with
    | inst i => exact hP.bind ih fun _ => hP.pure _
    | call c =>
      refine hP.get_bind fun q => iteInduction (fun _ => ?_) fun _ => ?_
      · exact hP.bind (hP.batchedCall c) fun _ => hP.bind ih fun _ => hP.pure _
      · exact hP.bind (hP.inlineCall c) fun _ => hP.bind ih fun _ => hP.pure _

theorem optimizeBlock {b : Block} (hP : Expands P id b.node) (options : MergeOptions)
    (regs : RegisterFile) : P (optimizeBlock id options regs b) := by
  unfold BuildM.optimizeBlock
  simp only []
  refine iteInduction (fun _ => hP.pure _) fun _ => ?_
  exact hP.bind (hP.expandCalls _) fun _ => hP.get_bind fun _ => hP.pure _

end Expands

/-! ## Tapes -/

/-- Schedule and allocate the tapes that a tape needs, and the tape. -/
def prepareTape (id : TapeId) : BuildM Unit := do
  let _ ← tape id
  if id = Program.mainTape then
    closeMain
  (← scheduleClosure id).forM ensureAllocated

theorem finalizeTape_eq (id : TapeId) :
    finalizeTape id = prepareTape id >>= fun _ => encodeTape id := by
  rw [prepareTape, finalizeTape, bind_assoc]
  refine congrArg _ (funext fun _ => ?_)
  split <;> simp only [bind_assoc]

/-- The property holds of the stages before single tapes are encoded. -/
structure Prepares (P : {α : Type} → BuildM α → Prop) : Prop extends Sequential P where
  closeMain : P closeMain
  scheduleTape : ∀ id, P (scheduleTape id)
  ensureAllocated : ∀ id, P (ensureAllocated id)

/-- The property holds of the stages in which single tapes are compiled. -/
structure Compiles (P : {α : Type} → BuildM α → Prop) : Prop extends Prepares P where
  encodeTape : ∀ id, P (encodeTape id)

namespace Prepares

variable {P : {α : Type} → BuildM α → Prop} (hP : Prepares P)

include hP

theorem scheduleAll : P scheduleAll :=
  hP.get_bind fun _ => hP.bind (hP.forM hP.scheduleTape _) fun _ =>
    hP.get_bind fun _ => hP.forM hP.scheduleTape _

theorem scheduleReachable (fuel : Nat) (met stack : List TapeId) :
    P (scheduleReachable fuel met stack) := by
  fun_induction BuildM.scheduleReachable fuel met stack with
  | case1 => exact hP.pure _
  | case2 => exact hP.pure _
  | case3 fuel met id stack hmem ih => exact ih
  | case4 fuel met id stack hmem ih =>
    exact hP.bind (hP.scheduleTape id) fun _ => hP.get_bind fun q => ih q

theorem scheduleClosure (id : TapeId) : P (scheduleClosure id) :=
  hP.get_bind fun _ => hP.scheduleReachable _ _ _

theorem prepareTape (id : TapeId) : P (prepareTape id) := by
  have hrest : P (BuildM.scheduleClosure id >>= fun met => met.forM BuildM.ensureAllocated) :=
    hP.bind (hP.scheduleClosure id) fun met => hP.forM hP.ensureAllocated met
  exact hP.bind (hP.reads (reads_tape id)) fun _ =>
    iteInduction (fun _ => hP.bind hP.closeMain fun _ => hrest) fun _ => hrest

end Prepares

namespace Compiles

variable {P : {α : Type} → BuildM α → Prop} (hP : Compiles P)

include hP

theorem finalizeTape (id : TapeId) : P (finalizeTape id) := by
  rw [finalizeTape_eq]
  exact hP.bind (hP.prepareTape id) fun _ => hP.encodeTape id

theorem finish : P finish := by
  refine hP.bind hP.closeMain fun _ => hP.bind hP.scheduleAll fun _ => hP.get_bind fun _ => ?_
  refine hP.bind (hP.forM hP.ensureAllocated _) fun _ => hP.get_bind fun _ => ?_
  refine hP.bind (hP.forM hP.encodeTape _) fun _ => hP.get_bind fun p => ?_
  exact hP.bind (hP.reads reads_collect) fun _ => hP.pure _

end Compiles

end BuildM

end SecureTape
