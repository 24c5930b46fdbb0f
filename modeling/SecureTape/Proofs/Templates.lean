import SecureTape.Program.Macro
import SecureTape.Proofs.Builders

/-!
# Templates of macros

Main statements:
1. `BuildM.meets_compileTemplate`: a template has a parameter of its own for each entry of its
   signature, and compiling it leaves no call on the other tapes.
2. `BuildM.lawful_callMacro`: calling a macro lets a coherent program evolve, if building its body
   does.
-/

namespace SecureTape

open Action RegisterFile Program List

variable {t : Tape} {name : String} {kind : TapeKind} {singular : Bool} {root : NodeId}

namespace BuildM

variable {p : Program} {f : RegisterFile}

/-! ## Parameters -/

theorem meets_createParams (hf : f.Valid) (signature : MacroSignature) :
    Meets Grows (createParams signature) f fun rs _ => rs.length = signature.length ∧
      (rs.map (·.id)).Nodup ∧ ∀ r ∈ rs, f.size ≤ r.id := by
  unfold createParams
  induction signature generalizing f with
  | nil => exact .pure hf.grows ⟨rfl, nodup_nil, nofun⟩
  | cons entry signature ih =>
    rw [mapM_cons]
    refine .bind (meets_create hf entry.1 1) ?_
    rintro r g hg ⟨rfl, hsize, -⟩
    refine .bind (ih hg.valid) ?_
    rintro rs h hh ⟨hlen, hnodup, hrs⟩
    refine .pure hh.valid.grows ⟨by simp [hlen], ?_, ?_⟩
    · rw [map_cons, nodup_cons]
      refine ⟨?_, hnodup⟩
      intro hmem
      obtain ⟨r', hr', heq⟩ := mem_map.1 hmem
      have hle := hrs r' hr'
      have : r'.id = f.size := heq
      omega
    · refine forall_mem_cons.2 ⟨Nat.le_refl f.size, ?_⟩
      intro r' hr'
      have := hrs r' hr'
      omega

/-! ## Templates -/

theorem meets_finishTemplate (hp : p.Coherent) (key : MacroKey) (signature : MacroSignature)
    (params : List Reg) (t : Tape) :
    Meets Evolves (finishTemplate key signature params t) p fun result q =>
      result.key = key ∧ result.signature = signature ∧ result.params = params ∧
        result.io = result.instructions.any (·.has .io) ∧
        result.touchesMemory = result.instructions.any (·.opcode.memoryClass?.isSome) ∧
        q.tapes = p.tapes := by
  unfold finishTemplate
  simp only []
  refine .ite (fun _ => .throw_bind (.refl hp)) fun _ => .bind (meets_onTree hp _) ?_
  rintro own q hq ⟨htapes, -⟩
  refine .liftM_bind (.refl hq.coherent) ?_
  intro result _
  exact .get_bind (.pure (.refl hq.coherent) ⟨rfl, rfl, rfl, rfl, rfl, htapes⟩)

/-- The program has the tapes that it had, and no macro calls on them that were not there. -/
structure SameTapes (p q : Program) : Prop where
  size : q.tapes.size = p.tapes.size
  calls : ∀ {id c}, id < p.tapes.size → (q.tapeAt id).Calls c → (p.tapeAt id).Calls c

theorem SameTapes.congr {p' q q' : Program} (h : SameTapes p q) (hp : p'.tapes = p.tapes)
    (hq : q'.tapes = q.tapes) : SameTapes p' q' := by
  have htape (id : TapeId) : p'.tapeAt id = p.tapeAt id := by rw [tapeAt, hp, tapeAt]
  have htape' (id : TapeId) : q'.tapeAt id = q.tapeAt id := by rw [tapeAt, hq, tapeAt]
  refine ⟨by rw [hq, hp, h.size], ?_⟩
  intro id c hid hc
  rw [htape'] at hc
  rw [htape]
  exact h.calls (hp ▸ hid) hc

theorem evolves_dropTape {r : Program} (hp : p.Coherent)
    (ht : Tape.Edits p.options False (Tape.new p.tapes.size name kind singular root) t)
    (hr : Evolves { p with tapes := p.tapes.push t, current := p.tapes.size } r) :
    Evolves p { r with tapes := r.tapes.take p.tapes.size, current := p.current } ∧
      SameTapes p { r with tapes := r.tapes.take p.tapes.size, current := p.current } := by
  have hnew := hp.addTape ht
  have hsize : p.tapes.size ≤ r.tapes.size := Nat.le_trans hnew.size_le hr.size_le
  refine ⟨(hnew.within hp (Nat.le_refl _) hr).truncate hp, ?_, ?_⟩
  · show (r.tapes.take p.tapes.size).size = p.tapes.size
    rw [Array.take, Array.size_extract]
    omega
  · intro id c hid hc
    have hcurrent : Coherent { p with tapes := p.tapes.push t, current := p.tapes.size } :=
      hnew.coherent.turnTo (by simp)
    have hold := tapeAt_push p t id
    rw [if_neg (Nat.ne_of_lt hid)] at hold
    rw [← hold]
    refine hr.calls hcurrent (hnew.lt hid) (Nat.ne_of_lt hid) ?_
    rw [← tapeAt_take r hid]
    exact hc

/-- Run an action on a tape of its own that is dropped afterwards; the answer is its outcome and the
tapes as they were before one was dropped. -/
def buildAside (t : Tape) (domain : FieldDomain) (act : BuildM Unit) :
    BuildM (Except CompileError Unit × Array Tape) := do
  modify fun p => { p with tapes := p.tapes.push t }
  let before ← get
  modify ({ · with vectorSize := 1, domain })
  let built ← attempt (withTape t.id act)
  modify ({ · with vectorSize := before.vectorSize, domain := before.domain })
  let tapes := (← get).tapes
  modify fun p => { p with tapes := p.tapes.take t.id }
  return (built, tapes)

theorem compileTemplate_eq (body : MacroBody) (key : MacroKey) (signature : MacroSignature) :
    compileTemplate body key signature = (do
      let id := (← get).tapes.size
      let root ← onTree (·.addNode ("template " ++ key.text))
      let blank := Tape.new id key.text .template true root
      let created := (createParams signature).run blank.regs
      let params ← liftM (n := BuildM) created.1
      let result ← buildAside { blank with regs := created.2 } key.domain (body.build params)
      if result.2.size ≠ id + 1 then
        rejectMacro key.text .createsTapes
      liftM (n := BuildM) result.1
      finishTemplate key signature params (result.2.getD id default)) := by
  unfold compileTemplate buildAside
  simp only [bind_assoc, pure_bind]
  rfl

theorem meets_buildAside (hp : p.Coherent)
    (ht : Tape.Edits p.options False (Tape.new p.tapes.size name kind singular root) t)
    (domain : FieldDomain) {act : BuildM Unit} (hact : Lawful act) :
    Meets Evolves (buildAside t domain act) p fun _ q => SameTapes p q := by
  have haside : Evolves p { p with vectorSize := 1, domain } := hp.beside rfl
  have hp' := haside.coherent
  have hcurrent : Coherent { p with
      vectorSize := 1, domain, tapes := p.tapes.push t, current := p.tapes.size } :=
    (hp'.addTape ht).coherent.turnTo (by simp)
  have hact' := (hact _ hcurrent).ends
  set r := (act.run { p with
    vectorSize := 1, domain, tapes := p.tapes.push t, current := p.tapes.size }).2 with hr
  obtain ⟨hdrop, hsame⟩ := evolves_dropTape hp' ht hact'
  have hback : Evolves { r with tapes := r.tapes.take p.tapes.size, current := p.current }
      { r with
        tapes := r.tapes.take p.tapes.size, current := p.current
        vectorSize := p.vectorSize, domain := p.domain } :=
    hdrop.coherent.beside rfl
  have hrun : ∃ result, (buildAside t domain act).run p = (.ok result, { r with
      tapes := r.tapes.take p.tapes.size, current := p.current
      vectorSize := p.vectorSize, domain := p.domain }) := by
    rw [hr, ← show t.id = p.tapes.size from ht.id_eq]
    exact ⟨_, rfl⟩
  obtain ⟨result, hrun⟩ := hrun
  exact .of_run_ok hrun (trans_of Evolves (trans_of Evolves haside hdrop) hback)
    ⟨hsame.size, hsame.calls⟩

variable {body : MacroBody}

theorem meets_compileTemplate (hp : p.Coherent) (hbody : ∀ args, Lawful (body.build args))
    (key : MacroKey) (signature : MacroSignature) :
    Meets Evolves (compileTemplate body key signature) p fun t q =>
      t.key = key ∧ t.Parametric ∧ SameTapes p q := by
  rw [compileTemplate_eq]
  refine .get_bind (.bind (meets_onTree hp _) ?_)
  rintro root q hq ⟨htapes, -⟩
  rw [← htapes]
  simp only []
  set blank := Tape.new q.tapes.size key.text .template true root with hblank
  have hnew : blank.Sound := Tape.Sound.new _ _ _ _ _
  have hparams := meets_createParams hnew.valid signature
  refine .liftM_bind (.refl hq.coherent) ?_
  intro params hcreated
  obtain ⟨hlen, hnodup, -⟩ := hparams.result params _ (Prod.ext hcreated rfl)
  have hregs := hparams.ends
  have hedits : Tape.Edits q.options False blank
      { blank with regs := ((createParams signature).run blank.regs).2 } :=
    .single (.registers (.inl rfl) ⟨hregs.ext.keeps, hregs.valid⟩)
  refine .bind (meets_buildAside hq.coherent hedits key.domain (hbody params)) ?_
  rintro ⟨built, tapes⟩ r hr hsame
  simp only []
  refine .ite (fun _ => .throw_bind (.refl hr.coherent)) fun _ => ?_
  refine .liftM_bind (.refl hr.coherent) ?_
  rintro _ -
  refine (meets_finishTemplate hr.coherent key signature params _).mono ?_
  rintro t s - ⟨rfl, rfl, rfl, hio, hmemory, hs⟩
  exact ⟨rfl, ⟨hnodup, hlen, hio, hmemory⟩, hsame.congr htapes.symm hs⟩

theorem find?_eq_lookup (c : MacroCache) (key : MacroKey) :
    (c.find? key).1 = c.lookup key ∧ ∀ k, (c.find? key).2.lookup k = c.lookup k := by
  unfold MacroCache.find? MacroCache.lookup
  cases c.templates.find? (·.key = key) with
  | none | some => exact ⟨rfl, fun _ => rfl⟩

theorem meets_template (hp : p.Coherent) (hbody : ∀ args, Lawful (body.build args)) (key : MacroKey)
    (signature : MacroSignature) :
    Meets Evolves (template body key signature) p fun t q => q.macros.lookup t.key = some t := by
  obtain ⟨hfound, hkeep⟩ := find?_eq_lookup p.macros key
  unfold template
  refine .get_bind ?_
  simp only []
  generalize p.macros.find? key = answer at hfound hkeep ⊢
  obtain ⟨found, macros⟩ := answer
  obtain rfl : found = p.macros.lookup key := hfound
  have hset : Evolves p { p with macros } := hp.aside rfl rfl rfl hkeep fun h => h
  refine .set_bind hset ?_
  simp only []
  cases hlookup : p.macros.lookup key with
  | some t =>
    refine .pure (.refl hset.coherent) ((hkeep _).trans ?_)
    rw [MacroCache.key_of_lookup hlookup, hlookup]
  | none =>
    -- The key may get a template meanwhile, so that the program after the body cannot be the start.
    have : IsTrans Program fun _ q => Evolves { p with macros } q := ⟨fun _ _ _ _ h => h⟩
    have hcompile := meets_compileTemplate hset.coherent hbody key signature
    have hwhole : Meets (fun _ q => Evolves { p with macros } q) (do
        let t ← compileTemplate body key signature
        modify fun p => { p with macros := p.macros.insert t }
        return t) { p with macros } fun t q => q.macros.lookup t.key = some t := by
      refine .bind ⟨hcompile.ends, hcompile.result⟩ ?_
      rintro t q hq ⟨rfl, hparametric, hsame⟩
      have hinsert := hq.insert hset.coherent hparametric ((hkeep _).trans hlookup) hsame.size
        hsame.calls
      refine .modify_bind hinsert (.pure hinsert ?_)
      show (q.macros.insert t).lookup t.key = some t
      rw [MacroCache.lookup_insert, if_pos rfl]
    exact ⟨hwhole.ends, hwhole.result⟩

/-! ## Calls -/

theorem meets_checkArguments (hp : p.Coherent) (name : String) (size : Option Nat)
    (args : List (Reg × RegisterClass)) :
    Meets Evolves (checkArguments name size args) p fun _ q =>
      q = p ∧ ∀ a ∈ args, p.currentTape.regs.owns a.1 = true := by
  induction args generalizing size with
  | nil => exact .pure (.refl hp) ⟨rfl, nofun⟩
  | cons a rest ih =>
    obtain ⟨arg, expected⟩ := a
    unfold checkArguments
    refine .bind (meets_registerInfo hp arg) ?_
    rintro ⟨cls, width⟩ q - ⟨hq, howns, -⟩
    subst q
    simp only []
    refine .ite (fun _ => .throw_bind (.refl hp)) fun _ => ?_
    refine .ite (fun _ => .throw_bind (.refl hp)) fun _ => ?_
    refine (ih _).mono ?_
    rintro _ q - ⟨hq, hrest⟩
    exact ⟨hq, forall_mem_cons.2 ⟨howns, hrest⟩⟩

theorem lawful_callMacro (hbody : ∀ args, Lawful (body.build args)) (args : List Reg) :
    Lawful (callMacro body args) := by
  intro p hp
  unfold callMacro
  refine .get_bind ?_
  simp only []
  refine .ite (fun _ => .throw_bind (.refl hp)) fun hlen => ?_
  refine .bind (meets_checkArguments hp _ _ _) ?_
  rintro common q - ⟨hq, hargs⟩
  subst q
  refine .ite (fun _ => ?_) fun _ => lawful_withVectorSize _ (hbody args) p hp
  refine .bind (meets_template hp hbody _ _) ?_
  intro t q hq ht
  refine .bind (meets_building hq.coherent) ?_
  rintro _ r - ⟨hr, -, -⟩
  subst r
  refine .bind (meets_modifyCurrent hq.coherent (.note (.of_eq rfl))) ?_
  rintro _ r hr rfl
  refine meets_pushOp hr.coherent ⟨trivial, ?_, nofun⟩ ?_
  · intro arg harg
    have hmem : arg ∈ args := by simpa [Op.registers] using harg
    obtain ⟨i, hi, rfl⟩ := getElem_of_mem hmem
    have hsame := Decidable.not_not.1 hlen
    have howns := hargs _ (mem_iff_getElem.2 ⟨i, by simp_all, rfl⟩)
    rw [getElem_zip] at howns
    have hevolves := trans_of Evolves hq hr
    have hcurrent := hevolves.owns hp hp.current_lt howns
    rwa [← hevolves.current] at hcurrent
  · rintro c ⟨⟩
    exact ht

end BuildM

end SecureTape
