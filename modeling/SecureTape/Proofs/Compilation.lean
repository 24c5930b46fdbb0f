import SecureTape.Proofs.Stages

/-!
# Compiling a program

Every action that takes tapes towards bytecode lets a coherent program evolve. Main statements:
1. `BuildM.lawful_allocateTape`: a tape is allocated in one edit, or it stays scheduled.
2. `BuildM.lawful_finalizeTape`, `BuildM.lawful_finish`: encoding one tape, or all.
-/

namespace SecureTape

open Action RegisterFile Program List

variable {p : Program} {regs : RegisterFile} {is : List Instruction}

theorem Program.Coherent.main_lt (hp : p.Coherent) : mainTape < p.tapes.size :=
  Nat.lt_of_le_of_lt (Nat.zero_le _) hp.current_lt

namespace BuildM

variable {id : TapeId}

/-! ## The main tape -/

theorem meets_modifyTape (hp : p.Coherent) (hid : id < p.tapes.size) {f : Tape → Tape}
    (h : Tape.Edit p.options False (p.tapeAt id) (f (p.tapeAt id))) :
    Meets Evolves (modify fun p : Program => p.modifyTape id f : BuildM PUnit) p fun _ q =>
      q.tapeAt id = f (p.tapeAt id) := by
  refine .modify (hp.quietEdit fun _ => h) ?_
  rw [tapeAt_modifyTape_self hid]

theorem meets_touchLastCell (hp : p.Coherent) (hstate : (p.tapeAt mainTape).state = .building)
    (cls : RegisterClass) (top : Nat) :
    Meets Evolves (touchLastCell cls top) p fun _ q => (q.tapeAt mainTape).state = .building := by
  have hcreate := meets_create (hp.sound hp.main_lt).valid cls 1
  have hregister : Meets Evolves (onRegisters mainTape (RegisterM.create cls 1)) p fun _ q =>
      (q.tapeAt mainTape).state = .building := by
    refine (meets_onRegisters hcreate fun _ => evolves_registers hp (.inl hstate)).mono ?_
    rintro r q - ⟨g, -, -, rfl⟩
    rw [tapeAt_modifyTape_self hp.main_lt]
    exact hstate
  refine .bind hregister ?_
  intro r q₁ hq₁ hstate₁
  have hkeep := (SameShape.keep (q₁.tapeAt mainTape).regs r).covers
    (hq₁.coherent.sound hq₁.coherent.main_lt).valid
  refine .bind (meets_modifyTape hq₁.coherent hq₁.coherent.main_lt
    (.registers (.inl hstate₁) hkeep)) ?_
  intro _ q₂ hq₂ htape₂
  have hstate₂ : (q₂.tapeAt mainTape).state = .building := by
    rw [htape₂]
    exact hstate₁
  refine .get_bind (.liftM_bind (.refl hq₂.coherent) ?_)
  intro i hi
  refine .liftM_bind (.refl hq₂.coherent) ?_
  intro t ht
  obtain ⟨hb, hopen, rfl⟩ := of_push_eq_ok ht
  refine (meets_modifyTape hq₂.coherent hq₂.coherent.main_lt
    (.push hb hopen (Instruction.typed_of_make hi).owned nofun)).mono ?_
  intro _ q _ htape
  rw [htape]
  exact hstate₂

theorem lawful_closeMain : Lawful closeMain := by
  intro p hp
  refine .bind (meets_checkScopes hp mainTape) ?_
  rintro _ q - ⟨hq, -⟩
  subst q
  refine .get_bind (.ite (fun hb => ?_) fun _ => .pure (.refl hp) trivial)
  refine .get_bind ?_
  simp only []
  refine .ite (fun _ => .pure (.refl hp) trivial) fun _ => ?_
  refine .bind (meets_modifyTape hp hp.main_lt (.startBlock hb (.inl rfl))) ?_
  intro _ q hq htape
  have hstate : (q.tapeAt mainTape).state = .building := by
    rw [htape, Tape.state_startBlock]
    exact of_decide_eq_true hb
  have hcells (used : List RegisterClass) (top : RegisterClass → Nat) {q : Program}
      (hq : q.Coherent) (hstate : (q.tapeAt mainTape).state = .building) :
      Meets Evolves (used.forM fun cls => touchLastCell cls (top cls)) q fun _ _ => True := by
    induction used generalizing q with
    | nil => exact .pure (.refl hq) trivial
    | cons cls used ih =>
      refine .bind (meets_touchLastCell hq hstate cls _) ?_
      intro _ q' hq' hstate'
      exact ih hq'.coherent hstate'
  exact hcells _ _ hq.coherent hstate

/-! ## Allocation -/

theorem typed_of_make_numbers {opcode : Opcode} {domain : FieldDomain} {values : List Int}
    {i : Instruction} (h : Instruction.make opcode domain 1 (values.map .number) regs = .ok i) :
    i.Typed regs ∧ i.accesses = [] := by
  refine ⟨Instruction.typed_of_make h, ?_⟩
  obtain ⟨-, -, -, -, -, rfl⟩ := Instruction.of_make_eq_ok h
  refine eq_nil_iff_forall_not_mem.2 ?_
  rintro ⟨r, a⟩ ha
  obtain ⟨value, -, hvalue⟩ := mem_map.1 (mem_operands_of_mem_accesses ha)
  cases hvalue

theorem forall_mem_of_mapM_eq_ok {α β : Type} {f : α → Except CompileError β} {P : β → Prop}
    {xs : List α} (hf : ∀ a ∈ xs, ∀ b, f a = .ok b → P b) {ys : List β} (h : xs.mapM f = .ok ys) :
    ∀ y ∈ ys, P y := by
  induction xs generalizing ys with
  | nil =>
    cases h
    exact nofun
  | cons x xs ih =>
    rw [mapM_cons] at h
    obtain ⟨y, hy, h⟩ := of_bind_ok h
    obtain ⟨zs, hzs, h⟩ := of_bind_ok h
    cases h
    exact forall_mem_cons.2 ⟨hf x (.head _) y hy,
      ih (fun a ha => hf a (mem_cons_of_mem x ha)) hzs⟩

theorem forall_mem_declarations {requirements : Tally} {arithmetic : Arithmetic} {bits : BitLengths}
    (h : declarations requirements arithmetic bits regs = .ok is) :
    ∀ i ∈ is, i.Typed regs ∧ i.accesses = [] := by
  obtain ⟨uses, huses, h⟩ := of_bind_ok h
  obtain ⟨lengths, hlengths, h⟩ := of_bind_ok h
  cases h
  refine forall_mem_append.2 ⟨?_, ?_⟩
  · exact forall_mem_of_mapM_eq_ok (fun _ _ _ => typed_of_make_numbers) huses
  · refine forall_mem_of_mapM_eq_ok (fun entry _ _ hmake => ?_) hlengths
    exact typed_of_make_numbers (show Instruction.make .reqbl entry.1 1
      ([entry.2].map .number) regs = _ from hmake)

/-- Assign the registers of a tape with declarations, and lay out its blocks. -/
def assignAndPlace (id : TapeId) (options : Options) (t : Tape) (requirements : Tally) :
    BuildM Unit := do
  let assigned := assignRegisters options t.regs t.blocks
  modify fun p => p.modifyTape id fun _ => { t with regs := assigned.2 }
  let usage ← liftM (n := BuildM) assigned.1
  let placed := Layout.resolve t.blocks.toList
  modify fun p => p.modifyTape id ({ · with blocks := placed.2.toArray })
  liftM (n := BuildM) (placed.1.mapError CompileError.construction)
  modify fun p => p.modifyTape id ({ · with state := .allocated usage requirements })

theorem allocateTape_eq (id : TapeId) : allocateTape id = (do
    let root := ((← get).tapeAt id).root
    let requirements ← onTree (·.aggregate root)
    let options := (← get).options
    let t := (← get).tapeAt id
    let declared ← declarations requirements options.arithmetic t.bitLengths t.regs
    assignAndPlace id options (t.declare declared) requirements) := rfl

theorem meets_assignAndPlace (hp : p.Coherent) (hstate : (p.tapeAt id).state = .scheduled)
    (his : ∀ i ∈ is, i.Typed (p.tapeAt id).regs ∧ i.accesses = []) (requirements : Tally) :
    Meets Evolves (assignAndPlace id p.options ((p.tapeAt id).declare is) requirements) p
      fun _ _ => True := by
  have hcovers (hid : id < p.tapes.size) := (sameShape_assignRegisters p.options
    (p.tapeAt id).regs ((p.tapeAt id).declare is).blocks).covers (hp.sound hid).valid
  -- every state on the way is one that the program evolves to from the start
  suffices h : Meets (fun _ q => Evolves p q)
      (assignAndPlace id p.options ((p.tapeAt id).declare is) requirements) p fun _ _ => True from
    ⟨h.ends, h.result⟩
  have : IsTrans Program fun _ q => Evolves p q := ⟨fun _ _ _ _ h => h⟩
  set assigned := assignRegisters p.options (p.tapeAt id).regs ((p.tapeAt id).declare is).blocks
  have hassign : Evolves p (p.modifyTape id fun _ =>
      { (p.tapeAt id).declare is with regs := assigned.2 }) :=
    hp.quietEdits fun hid =>
      .tail (.single (.declare hstate his)) (.registers (.inr hstate) (hcovers hid))
  refine .modify_bind hassign (.liftM_bind hassign ?_)
  intro usage husage
  have hplace : Evolves p ((p.modifyTape id fun _ =>
      { (p.tapeAt id).declare is with regs := assigned.2 }).modifyTape id ({ · with
        blocks := (Layout.resolve ((p.tapeAt id).declare is).blocks.toList).2.toArray })) := by
    rw [modifyTape_modifyTape]
    exact hp.quietEdits fun hid => .tail (.tail (.single (.declare hstate his))
      (.registers (.inr hstate) (hcovers hid))) (.place hstate)
  refine .modify_bind hplace (.liftM_bind hplace ?_)
  intro _ hresolved
  refine .modify ?_ trivial
  rw [modifyTape_modifyTape, modifyTape_modifyTape]
  refine hp.quietEdit fun _ => .allocate hstate his husage ?_
  cases hok : (Layout.resolve ((p.tapeAt id).declare is).blocks.toList).1 with
  | ok _ => rfl
  | error e =>
    rw [hok] at hresolved
    cases hresolved

theorem lawful_ensureAllocated (id : TapeId) : Lawful (ensureAllocated id) := by
  intro p hp
  refine .get_bind (.ite (fun hstate => ?_) fun _ => .pure (.refl hp) trivial)
  rw [allocateTape_eq]
  refine .get_bind (.bind (meets_onTree hp _) ?_)
  rintro requirements q hq ⟨htapes, -⟩
  refine .get_bind (.get_bind (.liftM_bind (.refl hq.coherent) ?_))
  intro is his
  refine meets_assignAndPlace hq.coherent ?_ (forall_mem_declarations his) requirements
  rw [tapeAt, htapes]
  exact hstate

/-! ## Bytecode -/

theorem physicalOf_of_owns (hp : p.Coherent) (hid : id < p.tapes.size) {r : Reg}
    (hr : (p.tapeAt id).regs.owns r) : physicalOf p r = (p.tapeAt id).regs.physical r := by
  have htape : r.tape = id := by
    rw [(owns_iff.1 hr).1, (hp.sound hid).tape, hp.id_eq hid]
  rw [physicalOf, htape]

theorem lawful_encodeTape (id : TapeId) : Lawful (encodeTape id) := by
  intro p hp
  refine .get_bind ?_
  simp only []
  split
  · exact .pure (.refl hp) trivial
  · exact .throw (.refl hp)
  · exact .throw (.refl hp)
  · rename_i usage requirements hstate
    refine .modify (hp.quietEdit fun hid => .encode hstate rfl ?_ rfl rfl rfl rfl) trivial
    exact fun r hr => physicalOf_of_owns hp hid hr

theorem compiles_lawful : Compiles Lawful where
  reads h p hp := ⟨(h p).symm ▸ .refl hp, fun _ _ _ => trivial⟩
  bind := Lawful.bind
  closeMain := lawful_closeMain
  scheduleTape := lawful_scheduleTape
  ensureAllocated := lawful_ensureAllocated
  encodeTape := lawful_encodeTape

theorem lawful_finalizeTape (id : TapeId) : Lawful (finalizeTape id) := compiles_lawful.finalizeTape id

theorem lawful_finish : Lawful finish := compiles_lawful.finish

end BuildM

end SecureTape
