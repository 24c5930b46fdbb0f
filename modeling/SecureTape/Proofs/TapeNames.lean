import SecureTape.Proofs.RootedPrograms
import SecureTape.Proofs.ScheduleText

/-!
# The names of tapes

The files of a compiled program are named after its tapes. A tape that is made for the batches of a
macro is named after the macro and the width, so two macros that share a name can share a file.
Main statements:
1. `batchName_inj`: the name of a tape for batches shows the name of the macro and the width.
2. `Program.Reachable.titled`, `Program.Reachable.nodup_macroTapes`: results keep the names of their
   tapes, and there is one tape for the batches of a macro at a width.
3. `BuildM.compiles_records`: the tapes that a program gets when it is finished are for batches.
4. `BuildM.finish_names_apart`: if no two macros share a name, no file is written twice.
-/

namespace SecureTape

open Action List Preserves

/-! ## Tapes for batches -/

variable {name name' : String} {width : Nat} {id : TapeId} {t : Tape} {p p₀ q : Program}

def batchName (program name : String) (width : Nat) : String :=
  program ++ "-" ++ (name ++ "-" ++ toString width)

theorem eq_of_append_cons_eq {α : Type} {c : α} {as bs ds es : List α} (hds : c ∉ ds) (hes : c ∉ es)
    (h : as ++ c :: ds = bs ++ c :: es) : as = bs ∧ ds = es := by
  rcases append_eq_append_iff.1 h with ⟨m, rfl, hm⟩ | ⟨m, rfl, hm⟩
  · cases m with
    | nil => simpa using hm
    | cons x m =>
      obtain ⟨-, rfl⟩ := List.cons.inj hm
      simp at hds
  · cases m with
    | nil => simpa using hm.symm
    | cons x m =>
      obtain ⟨-, rfl⟩ := List.cons.inj hm
      simp at hes

theorem batchName_inj {program : String} {width' : Nat}
    (h : batchName program name width = batchName program name' width') :
    name = name' ∧ width = width' := by
  have hdash (n : Nat) : '-' ∉ (toString n).toList := by
    rw [Schedule.toList_toString]
    exact fun hmem => absurd (Text.isDigit_of_mem_toDigits hmem) (by decide)
  have hchars := congrArg String.toList h
  simp only [batchName, String.toList_append, append_assoc] at hchars
  have htail := append_cancel_left (append_cancel_left hchars)
  obtain ⟨hname, hwidth⟩ := eq_of_append_cons_eq (hdash width) (hdash width') htail
  refine ⟨String.toList_inj.1 hname, ?_⟩
  have hdigits := congrArg (Nat.ofDigitChars 10 · 0) hwidth
  simpa only [Schedule.toList_toString, Nat.ofDigitChars_ten_toDigits] using hdigits

namespace Program

/-- The tape is kept for batches of a macro, and named for them. -/
def IsBatch (p : Program) (id : TapeId) : Prop :=
  ∃ key width params, ((key, width), (id, params)) ∈ p.macroTapes ∧
    (p.tapeAt id).name = batchName p.name key.name width

/-- The tapes that are not for batches have names of their own, which no tape for batches can
have. -/
structure FrontNamed (p : Program) : Prop where
  apart : ∀ {id}, id < p.tapes.size → ¬ p.IsBatch id →
    ∀ name width, (p.tapeAt id).name ≠ batchName p.name name width
  distinct : ∀ {i j}, i < p.tapes.size → j < p.tapes.size → ¬ p.IsBatch i → ¬ p.IsBatch j →
    (p.tapeAt i).name = (p.tapeAt j).name → i = j

end Program

/-! ## Results have the names of their tapes -/

namespace Tape

variable {options : Options} {calls : Prop} {t' : Tape}

theorem name_closeTape (t : Tape) : (BuildM.closeTape t).name = t.name := by
  rw [closeTape_eq]
  rfl

theorem name_declare (t : Tape) (is : List Instruction) : (t.declare is).name = t.name := rfl

/-- The result of a finished tape has the name of the tape. -/
def Titled (t : Tape) : Prop := ∀ r, t.state = .finished r → r.name = t.name

theorem titled_of_isBuilding (h : t.isBuilding) : t.Titled := by
  intro r hr
  rw [isBuilding, hr] at h
  cases h

theorem Edit.titled (h : Edit options calls t t') (ht : t.Titled) : t'.Titled := by
  have hstart {name : String} {scope : Option BlockId} {exit : Option Exit} {node : NodeId}
      (hb : t.isBuilding = true) : (t.startBlock name scope exit node).2.isBuilding = true := by
    rwa [isBuilding, state_startBlock]
  cases h with
  | note h =>
    intro r hr
    rw [h.name]
    exact ht r (h.state ▸ hr)
  | startBlock hb | openLoop hb | endLoop hb | beginIf hb | beginElse hb | endIf hb
  | beginFunction hb | endFunction hb => exact titled_of_isBuilding (hstart hb)
  | close hb hscopes =>
    intro r hr
    rw [closeTape_eq] at hr
    cases hr
  | allocate hstate his husage hplace =>
    intro r hr
    cases hr
  | encode hstate hname hphysical hcode hcount husage hrequired =>
    intro r hr
    cases hr
    exact hname
  | _ => exact ht

theorem Edits.titled (h : Edits options calls t t') (ht : t.Titled) : t'.Titled := by
  induction h with
  | refl => exact ht
  | tail _ h ih => exact h.titled ih

end Tape

namespace Program

theorem Evolves.titled (h : Evolves p q) (hp : ∀ id < p.tapes.size, (p.tapeAt id).Titled) :
    ∀ id < q.tapes.size, (q.tapeAt id).Titled := by
  intro id hid
  by_cases hold : id < p.tapes.size
  · exact (h.tape hold).titled (hp id hold)
  · obtain ⟨name, kind, singular, root, hborn⟩ := h.born (not_lt.1 hold) hid
    exact hborn.titled (Tape.titled_of_isBuilding rfl)

theorem Reachable.titled (h : p.Reachable) : ∀ id < p.tapes.size, (p.tapeAt id).Titled := by
  obtain ⟨name, options, start, α, act, hnew, hact, rfl⟩ := h
  refine (hact.lawful start (coherent_of_new hnew)).ends.titled fun id hid => ?_
  unfold Program.new at hnew
  split at hnew
  · cases hnew
  · cases hnew
    obtain rfl : id = mainTape := Nat.lt_one_iff.1 hid
    exact Tape.titled_of_isBuilding rfl

theorem Reachable.nodup_macroTapes (h : p.Reachable) : (p.macroTapes.map (·.1)).Nodup := by
  obtain ⟨name, options, start, α, act, hnew, hact, rfl⟩ := h
  refine (hact.lawful start (coherent_of_new hnew)).ends.batches ?_
  unfold Program.new at hnew
  split at hnew
  · cases hnew
  · cases hnew
    exact .nil

end Program

/-! ## What compiling does to names -/

namespace Program

/-- The programs have tapes of the same names, and the same of them are kept for batches. -/
structure SameNames (p q : Program) : Prop where
  title : q.name = p.name
  size : q.tapes.size = p.tapes.size
  name : ∀ id, (q.tapeAt id).name = (p.tapeAt id).name
  batches : q.macroTapes = p.macroTapes

namespace SameNames

theorem refl (p : Program) : SameNames p p := ⟨rfl, rfl, fun _ => rfl, rfl⟩

theorem modifyTape (h : SameNames p q) (id : TapeId) {f : Tape → Tape}
    (hf : (f (q.tapeAt id)).name = (q.tapeAt id).name) : SameNames p (q.modifyTape id f) := by
  refine ⟨h.title, (size_modifyTape q id f).trans h.size, fun j => ?_, h.batches⟩
  rw [tapeAt_modifyTape]
  split
  · rename_i hj
    rw [hf, hj.1, h.name]
  · exact h.name j

theorem onTree (h : SameNames p q) (tree : RequirementTree) : SameNames p { q with tree } :=
  ⟨h.title, h.size, h.name, h.batches⟩

theorem isBatch (h : SameNames p q) (hid : p.IsBatch id) : q.IsBatch id := by
  obtain ⟨key, width, params, hmem, hname⟩ := hid
  refine ⟨key, width, params, h.batches.symm ▸ hmem, ?_⟩
  rw [h.name, h.title, hname]

end SameNames

/-- The program comes from `p₀`: the tapes of `p₀` have the names that they had, and all others are
for batches. -/
structure Records (p₀ p : Program) : Prop where
  title : p.name = p₀.name
  size_le : p₀.tapes.size ≤ p.tapes.size
  name : ∀ {id}, id < p₀.tapes.size → (p.tapeAt id).name = (p₀.tapeAt id).name
  batches : p₀.macroTapes ⊆ p.macroTapes
  born : ∀ {id}, p₀.tapes.size ≤ id → id < p.tapes.size → p.IsBatch id

theorem Records.refl (p : Program) : Records p p :=
  ⟨rfl, le_rfl, fun _ => rfl, List.Subset.refl _, fun h h' => absurd h' (Nat.not_lt.2 h)⟩

theorem Records.sameNames (h : Records p₀ p) (hpq : SameNames p q) : Records p₀ q where
  title := hpq.title.trans h.title
  size_le := hpq.size.symm ▸ h.size_le
  name hid := (hpq.name _).trans (h.name hid)
  batches := hpq.batches.symm ▸ h.batches
  born hid hlt := hpq.isBatch (h.born hid (hpq.size ▸ hlt))

end Program

namespace BuildM

open Program

variable {α : Type} {node : NodeId}

theorem preserves_of_maintains {act : BuildM α} (h : ∀ p, Maintains (SameNames p) act) :
    Preserves (Records p₀) act := by
  intro p a q hp hrun
  have hsame := h p p (.refl p)
  rw [hrun] at hsame
  exact hp.sameNames hsame

theorem fills_sameNames (id : TapeId) : Fills (SameNames p) id where
  note h hf := h.modifyTape id (by rw [hf])
  push _ h := h.modifyTape id rfl

theorem sameNames_onTree (f : RequirementTree → α × RequirementTree) :
    Maintains (SameNames p) (onTree f) :=
  fun _ h => h.onTree _

/-! ### Macro calls -/

theorem of_run_macroTape {t : Template} {entry : TapeId × List Reg}
    (h : (macroTape t width).run p = (.ok entry, q)) : entry.1 = p.tapes.size ∧ SameNames { p with
      tapes := p.tapes.push (Tape.new p.tapes.size (batchName p.name t.key.name width) .function true
        p.tree.size) } q := by
  rw [macroTape_eq] at h
  obtain ⟨id, s, hadd, hrest⟩ := of_run_bind_ok h
  cases hadd
  have hend : SameNames { p with
      tapes := p.tapes.push (Tape.new p.tapes.size (batchName p.name t.key.name width) .function true
        p.tree.size) } ((fillTape t width p.tapes.size).run _).2 :=
    (fills_sameNames p.tapes.size).fillTape (fun _ h => h.onTree _) _
      ((SameNames.refl _).onTree (p.tree.addNode (batchName p.name t.key.name width)).2)
  obtain ⟨params, s₁, -, hrest'⟩ := of_run_bind_ok hrest
  obtain ⟨code, s₂, -, hrest'⟩ := of_run_bind_ok hrest'
  obtain ⟨_, s₃, -, hrest'⟩ := of_run_bind_ok hrest'
  obtain ⟨_, s₄, -, hrest'⟩ := of_run_bind_ok hrest'
  obtain ⟨_, s₅, -, hrest'⟩ := of_run_bind_ok hrest'
  obtain ⟨_, s₆, -, hrest'⟩ := of_run_bind_ok hrest'
  cases hrest'
  exact ⟨rfl, (congrArg (SameNames _ ·.2) hrest).mp hend⟩

theorem records_batchTape (t : Template) (width : Nat) :
    Preserves (Records p₀) (batchTape t width) := by
  refine bind (.of_reads .get) fun found => ?_
  split
  · exact .of_reads (.pure _)
  · intro p entry q hp hrun
    obtain ⟨made, s, hmade, hrest⟩ := of_run_bind_ok hrun
    obtain ⟨_, s', hnote, hrest⟩ := of_run_bind_ok hrest
    cases hnote
    cases hrest
    obtain ⟨hid, hsame⟩ := of_run_macroTape hmade
    have hname (j : TapeId) : (s.tapeAt j).name = if j = p.tapes.size
        then batchName p.name t.key.name width else (p.tapeAt j).name := by
      rw [hsame.name, tapeAt_push, apply_ite Tape.name]
      rfl
    have hsize : s.tapes.size = p.tapes.size + 1 := hsame.size.trans (Array.size_push _)
    have htitle : s.name = p.name := hsame.title
    have hbatches : s.macroTapes = p.macroTapes := hsame.batches
    refine ⟨htitle.trans hp.title, ?_, fun {j} hj => ?_, ?_, fun {j} hj hlt => ?_⟩
    · exact hp.size_le.trans (hsize ▸ Nat.le_succ _)
    · exact ((hname j).trans (if_neg (ne_of_lt (hj.trans_le hp.size_le)))).trans (hp.name hj)
    · exact List.Subset.trans hp.batches (hbatches ▸ subset_cons_self _ _)
    · by_cases hnew : j = p.tapes.size
      · refine ⟨t.key, width, entry.2, ?_, ?_⟩
        · rw [hnew, ← hid]
          exact .head _
        · exact ((hname j).trans (if_pos hnew)).trans
            (congrArg (batchName · t.key.name width) htitle.symm)
      · have hold : j < p.tapes.size := by
          have hlt' : j < s.tapes.size := hlt
          omega
        obtain ⟨key, w, params, hmem, hbatch⟩ := hp.born hj hold
        refine ⟨key, w, params, .tail _ (hbatches ▸ hmem), ?_⟩
        refine ((hname j).trans (if_neg hnew)).trans (hbatch.trans ?_)
        exact congrArg (batchName · key.name w) htitle.symm

theorem records_batchedCall (c : MacroCall) : Preserves (Records p₀) (batchedCall id node c) := by
  refine bind (.of_reads .get) fun q =>
    iteInduction (fun _ => .of_reads .throw_bind) fun _ => ?_
  refine (records_batchTape _ _).bind fun entry => preserves_of_maintains fun p => ?_
  refine ((fills_sameNames id).onRegisters _).bind fun code => .get_bind fun q => ?_
  refine (sameNames_onTree _).discard.bind fun _ => ?_
  exact Maintains.bind (.modify fun _ h => h.modifyTape id rfl) fun _ => .pure _

theorem expands_records : Expands (Preserves (Records p₀)) id node where
  toSequential := sequential_preserves _
  onRegisters act := preserves_of_maintains fun _ => (fills_sameNames id).onRegisters act
  addUsage _ _ := preserves_of_maintains fun _ => sameNames_onTree _
  batchedCall c := records_batchedCall c

/-! ### Scheduling -/

theorem records_scheduleBlock (options : MergeOptions) (index : BlockId) :
    Preserves (Records p₀) (scheduleBlock id options index) := by
  have hmodify (f : Block → Block) : Preserves (Records p₀)
      (modify fun p : Program => p.modifyTape id fun t => t.modifyBlock index f : BuildM PUnit) :=
    preserves_of_maintains fun _ => .modify fun _ h => h.modifyTape id rfl
  rw [scheduleBlock_eq]
  refine bind (.of_reads .get) fun p => (hmodify _).bind fun _ => ?_
  refine (expands_records.optimizeBlock options _).bind fun result => ?_
  refine bind (.of_reads (reads_appendJump _ _ _)) fun ops => (hmodify _).bind fun _ => ?_
  exact preserves_of_maintains fun _ => sameNames_onTree _

theorem records_scheduleTape (id : TapeId) : Preserves (Records p₀) (scheduleTape id) := by
  refine bind (.of_reads .get) fun q => iteInduction (fun _ => ?_) fun _ => .of_reads (.pure _)
  refine bind (.of_reads (reads_checkScopes id)) fun _ => bind ?_ fun _ =>
    bind (.of_reads .get) fun _ => (sequential_preserves _).forM (records_scheduleBlock _) _
  exact preserves_of_maintains fun _ => .modify fun _ h => h.modifyTape id (Tape.name_closeTape _)

theorem sameNames_closeMain : Maintains (SameNames p) closeMain :=
  (fills_sameNames mainTape).closeMain fun _ h => h.modifyTape mainTape (Tape.name_startBlock ..)

/-! ### Allocation and bytecode -/

theorem sameNames_assignAndPlace (h : SameNames p q) (options : Options)
    (ht : t.name = (q.tapeAt id).name) (requirements : Tally) :
    SameNames p ((assignAndPlace id options t requirements).run q).2 := by
  unfold assignAndPlace
  rw [run_bind_ok (run_modify _ _)]
  refine (Reads.liftM _).bind_cases (SameNames p) (h.modifyTape id ht) fun usage _ => ?_
  have hplaced := (h.modifyTape id (f := fun _ =>
    { t with regs := (assignRegisters options t.regs t.blocks).2 }) ht).modifyTape id
      (f := ({ · with blocks := (Layout.resolve t.blocks.toList).2.toArray })) rfl
  rw [run_bind_ok (run_modify _ _)]
  refine (Reads.liftM _).bind_cases (SameNames p) hplaced fun _ _ => ?_
  exact hplaced.modifyTape id rfl

theorem sameNames_ensureAllocated (id : TapeId) : Maintains (SameNames p) (ensureAllocated id) := by
  refine .get_bind fun q => .ite _ (fun s h => ?_) (.pure _)
  rw [allocateTape_eq, run_get_bind, run_bind_ok (run_onTree _ s)]
  rw [run_get_bind, run_get_bind]
  have hask := h.onTree (s.tree.aggregate (s.tapeAt id).root).2
  refine (Reads.liftM _).bind_cases (SameNames p) hask fun declared _ => ?_
  exact sameNames_assignAndPlace hask _ (Tape.name_declare _ declared) _

theorem sameNames_encodeTape (id : TapeId) : Maintains (SameNames p) (encodeTape id) := by
  refine .get_bind fun q => ?_
  simp only []
  split
  · exact .pure _
  · exact .throw _
  · exact .throw _
  · exact .modify fun _ h => h.modifyTape id rfl

theorem compiles_records : Compiles (Preserves (Records p₀)) where
  toSequential := sequential_preserves _
  closeMain := preserves_of_maintains fun _ => sameNames_closeMain
  scheduleTape := records_scheduleTape
  ensureAllocated id := preserves_of_maintains fun _ => sameNames_ensureAllocated id
  encodeTape id := preserves_of_maintains fun _ => sameNames_encodeTape id

end BuildM

/-! ## Files -/

namespace CompiledProgram

theorem lookup_writeFile (files : List (String × Bytes)) (path : String) (content : Bytes)
    (other : String) : (writeFile files path content).lookup other =
      if other = path then some content else files.lookup other := by
  have hrest : (files.filter (·.1 ≠ path)).lookup other =
      if other = path then none else files.lookup other := by
    induction files with
    | nil => simp
    | cons file files ih =>
      by_cases hfile : file.1 = path
      · rw [filter_cons_of_neg (by simpa using hfile), ih]
        split
        · rfl
        · rename_i hother
          rw [lookup_cons, beq_eq_false_iff_ne.2 fun h => hother (h.trans hfile)]
      · rw [filter_cons_of_pos (by simpa using hfile), lookup_cons, lookup_cons, ih]
        by_cases hother : other = file.1
        · have hpath : other ≠ path := fun h => hfile (hother.symm.trans h)
          rw [beq_iff_eq.2 hother, if_neg hpath, if_neg hpath]
        · rw [beq_eq_false_iff_ne.2 hother]
  rw [writeFile, lookup_append, hrest, lookup_cons]
  by_cases hother : other = path
  · simp [hother]
  · simp [hother, beq_eq_false_iff_ne.2 hother]

def bytecodePath (name : String) : String := "Bytecode/" ++ name ++ ".bc"

theorem bytecodePath_inj (h : bytecodePath name = bytecodePath name') : name = name' := by
  have hchars := congrArg String.toList h
  simp only [bytecodePath, String.toList_append, append_assoc] at hchars
  exact String.toList_inj.1 (append_cancel_right (append_cancel_left hchars))

theorem bytecodePath_ne_schedulePath (c : CompiledProgram) (name : String) :
    bytecodePath name ≠ c.schedulePath := by
  intro h
  have hchars := congrArg (·.toList.head?) h
  simp [bytecodePath, schedulePath, String.toList_append] at hchars

theorem lookup_files (c : CompiledProgram) (h : (c.tapes.map (·.name)).Nodup) {t : FinishedTape}
    (ht : t ∈ c.tapes) : c.files.lookup (bytecodePath t.name) = some t.bytecode := by
  have hfold (tapes : List FinishedTape) (files : List (String × Bytes))
      (hnodup : (tapes.map (·.name)).Nodup) (name : String) :
      (tapes.foldl (fun files t => writeFile files (bytecodePath t.name) t.bytecode) files).lookup
        (bytecodePath name) = ((tapes.find? (·.name = name)).map (·.bytecode)).or
          (files.lookup (bytecodePath name)) := by
    induction tapes generalizing files with
    | nil => rfl
    | cons s tapes ih =>
      obtain ⟨hnotMem, hrest⟩ := nodup_cons.1 hnodup
      rw [foldl_cons, ih _ hrest, lookup_writeFile]
      by_cases hname : s.name = name
      · have hnone : tapes.find? (·.name = name) = none := by
          refine find?_eq_none.2 fun u hu hsame => hnotMem ?_
          exact mem_map.2 ⟨u, hu, (of_decide_eq_true hsame).trans hname.symm⟩
        simp [hname, hnone]
      · have hpath : bytecodePath name ≠ bytecodePath s.name := fun h => hname (bytecodePath_inj h).symm
        simp [hname, hpath]
  have hfind : c.tapes.find? (·.name = t.name) = some t := by
    have hinj := inj_on_of_nodup_map h
    cases hfound : c.tapes.find? (·.name = t.name) with
    | none => exact absurd (find?_eq_none.1 hfound t ht) (by simp)
    | some u =>
      have hname : u.name = t.name := by simpa using find?_some hfound
      rw [hinj (mem_of_find?_eq_some hfound) ht hname]
  have hfiles := lookup_writeFile (c.tapes.foldl (fun files t =>
    writeFile files (bytecodePath t.name) t.bytecode) []) c.schedulePath (Text.utf8 c.schedule.toText)
    (bytecodePath t.name)
  rw [if_neg (bytecodePath_ne_schedulePath c t.name), hfold c.tapes [] h, hfind] at hfiles
  exact hfiles

end CompiledProgram

namespace BuildM

open Program

section Names

variable {c : CompiledProgram} (hp : p.Reachable) (hfront : p.FrontNamed)
  (h : finish.run p = (.ok c, q)) (hkeys : ∀ e ∈ q.macroTapes, ∀ e' ∈ q.macroTapes,
    e.1.1.name = e'.1.1.name → e.1.2 = e'.1.2 → e.1.1 = e'.1.1)

include hp hfront h hkeys

/-- Two tapes of a finished program share a name only if they are for batches of different macros
that share a name. -/
theorem eq_of_name_eq {i j : TapeId} (hi : i < q.tapes.size) (hj : j < q.tapes.size)
    (hname : (q.tapeAt i).name = (q.tapeAt j).name) : i = j := by
  have hrecords := compiles_records.finish p c q (.refl p) h
  have hq : q.Reachable := by
    have hrun := reachable_run hp .finish
    rwa [h] at hrun
  have hbatch {id : TapeId} (hid : p.IsBatch id) (hlt : id < p.tapes.size) : q.IsBatch id := by
    obtain ⟨key, width, params, hmem, hid⟩ := hid
    refine ⟨key, width, params, hrecords.batches hmem, ?_⟩
    rw [hrecords.name hlt, hid, hrecords.title]
  -- a tape is for batches, or it was there before and was not
  have horigin {id : TapeId} (hid : id < q.tapes.size) :
      q.IsBatch id ∨ id < p.tapes.size ∧ ¬ p.IsBatch id := by
    by_cases hlt : id < p.tapes.size
    · by_cases hold : p.IsBatch id
      · exact .inl (hbatch hold hlt)
      · exact .inr ⟨hlt, hold⟩
    · exact .inl (hrecords.born (not_lt.1 hlt) hid)
  have hapart {i j : TapeId} (hi : q.IsBatch i) (hj : j < p.tapes.size) (hfree : ¬ p.IsBatch j)
      (hname : (q.tapeAt i).name = (q.tapeAt j).name) : False := by
    obtain ⟨key, width, params, -, hi⟩ := hi
    refine hfront.apart hj hfree key.name width ?_
    rw [← hrecords.name hj, ← hname, hi, hrecords.title]
  rcases horigin hi with hbi | ⟨hlti, hfreei⟩
  · rcases horigin hj with hbj | ⟨hltj, hfreej⟩
    · obtain ⟨key, width, params, hmem, hi⟩ := hbi
      obtain ⟨key', width', params', hmem', hj⟩ := hbj
      rw [hi, hj] at hname
      obtain ⟨hsame, rfl⟩ := batchName_inj hname
      obtain rfl : key = key' := hkeys _ hmem _ hmem' hsame rfl
      have hentry := inj_on_of_nodup_map hq.nodup_macroTapes hmem hmem' rfl
      exact congrArg (·.2.1) hentry
    · exact (hapart hbi hltj hfreej hname).elim
  · rcases horigin hj with hbj | ⟨hltj, hfreej⟩
    · exact (hapart hbj hlti hfreei hname.symm).elim
    · refine hfront.distinct hlti hltj hfreei hfreej ?_
      rw [← hrecords.name hlti, ← hrecords.name hltj, hname]

/-- If the frontend names its tapes apart, and macros that are batched at one width under one name
are the same, then the tapes of a finished program have different names, and the file of every tape
holds its bytecode. -/
theorem finish_names_apart :
    (c.tapes.map (·.name)).Nodup ∧
      ∀ t ∈ c.tapes, c.files.lookup ("Bytecode/" ++ t.name ++ ".bc") = some t.bytecode := by
  have hq : q.Reachable := by
    have hrun := reachable_run hp .finish
    rwa [h] at hrun
  have htape (i : Nat) (hi : i < q.tapes.toList.length) : q.tapes.toList[i] = q.tapeAt i := by
    rw [tapeAt, Array.getD_eq_getD_getElem?, Array.getElem?_eq_getElem (by simpa using hi)]
    rfl
  have hnames : c.tapes.map (·.name) = q.tapes.toList.map (·.name) := by
    have hall := (of_run_finish h).2
    refine ext_getElem (by simp [hall.length_eq]) fun i hi hi' => ?_
    rw [length_map] at hi hi'
    have hstate := (forall₂_iff_get.1 hall).2 i hi' hi
    simp only [get_eq_getElem] at hstate
    rw [getElem_map, getElem_map]
    rw [htape i hi'] at hstate ⊢
    exact hq.titled i (by simpa using hi') _ hstate
  have hnodup : (c.tapes.map (·.name)).Nodup := by
    rw [hnames, List.Nodup, pairwise_map, pairwise_iff_getElem]
    intro i j hi hj hlt hname
    rw [htape i hi, htape j hj] at hname
    exact hlt.ne (eq_of_name_eq hp hfront h hkeys (by simpa using hi) (by simpa using hj) hname)
  exact ⟨hnodup, fun t ht => c.lookup_files hnodup ht⟩

end Names

/-! ### Two macros -/

def loader (name : String) (value : Int) : MacroBody where
  name
  params := [value]
  signature := [(.int, .write)]
  build args := args.forM (loadInt · value)

def loadBoth (first second : String) : BuildM Unit := do
  modify ({ · with policy := .callAlways })
  let x ← newInteger
  let y ← newInteger
  callMacro (loader first 1) [x]
  callMacro (loader second 2) [y]

theorem api_loadBoth (first second : String) : (loadBoth first second).Api := by
  have hbuild (name : String) (value : Int) (args : List Reg) :
      ((loader name value).build args).Api := by
    show (args.forM (loadInt · value)).Api
    induction args with
    | nil => exact .pure _
    | cons r args ih => exact .bind (.loadInt r value) fun _ => ih
  exact .bind (.setPolicy _) fun _ => .bind .newInteger fun _ => .bind .newInteger fun _ =>
    .bind (.callMacro (hbuild _ _) _) fun _ => .callMacro (hbuild _ _) _

theorem frontNamed_of_size_eq_one (hsize : p.tapes.size = 1) (hname : (p.tapeAt 0).name = p.name) :
    p.FrontNamed := by
  refine ⟨fun {id} hid _ name width h => ?_, fun {i j} hi hj _ _ _ => by omega⟩
  obtain rfl : id = 0 := by omega
  have hlength := congrArg String.length (hname.symm.trans h)
  simp only [batchName, String.length_append] at hlength
  have hdash : "-".length = 1 := by decide
  omega

/-- Macros of different names have files of their own. -/
theorem finish_names_apart_two_macros : ∃ c q, finish.run (builtBy (loadBoth "m" "n")) = (.ok c, q) ∧
    c.tapes.map (·.name) = ["main", "main-m-1", "main-n-1"] ∧ (c.tapes.map (·.name)).Nodup ∧
      ∀ t ∈ c.tapes, c.files.lookup ("Bytecode/" ++ t.name ++ ".bc") = some t.bytecode := by
  obtain ⟨c, q, hrun, hnames⟩ := exists_run_ok finish (builtBy (loadBoth "m" "n"))
    (·.tapes.map (·.name) = ["main", "main-m-1", "main-n-1"]) (by decide +kernel)
  have hkeys : ∀ e ∈ (finish.run (builtBy (loadBoth "m" "n"))).2.macroTapes,
      ∀ e' ∈ (finish.run (builtBy (loadBoth "m" "n"))).2.macroTapes,
        e.1.1.name = e'.1.1.name → e.1.2 = e'.1.2 → e.1.1 = e'.1.1 := by
    decide +kernel
  have hfront : (builtBy (loadBoth "m" "n")).FrontNamed :=
    frontNamed_of_size_eq_one (by decide +kernel) (by decide +kernel)
  rw [hrun] at hkeys
  exact ⟨c, q, hrun, hnames,
    finish_names_apart (reachable_builtBy (api_loadBoth "m" "n")) hfront hrun hkeys⟩

/-- Macros that differ in their parameters only share a name and a file, and the file holds the
bytecode of one of them. -/
theorem batches_share_file : (builtBy (loadBoth "m" "m")).Reachable ∧
    (builtBy (loadBoth "m" "m")).FrontNamed ∧ ∃ c q,
    finish.run (builtBy (loadBoth "m" "m")) = (.ok c, q) ∧
      c.tapes.map (·.name) = ["main", "main-m-1", "main-m-1"] ∧
      ∃ t ∈ c.tapes, c.files.lookup ("Bytecode/" ++ t.name ++ ".bc") ≠ some t.bytecode := by
  refine ⟨reachable_builtBy (api_loadBoth "m" "m"),
    frontNamed_of_size_eq_one (by decide +kernel) (by decide +kernel), ?_⟩
  exact exists_run_ok finish (builtBy (loadBoth "m" "m")) _ (by decide +kernel)

end BuildM

end SecureTape
