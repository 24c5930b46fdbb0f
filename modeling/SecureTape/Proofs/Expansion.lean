import SecureTape.Program.Batch
import SecureTape.Proofs.Actions
import SecureTape.Proofs.Merged
import SecureTape.Proofs.Typing

/-!
# Expanded macro calls

The instructions that replace a macro call use the arguments of the call and new registers. Main
statements:
1. `Template.meets_expand`: a call site is expanded by a renaming of the template's registers.
2. `meets_batchInstructions`: a batch reads only arguments that the call reads, and writes all that
   the call writes.
-/

namespace SecureTape

open Action List Instruction

/-! ## Actions on register files -/

variable {base k key n : Nat} {arg r r' : Reg} {code : List Instruction} {c : MacroCall}
  {i : Instruction} {f g : RegisterFile} {t : Template}

namespace RegisterFile

/-- The file `g` has the registers of `f` and perhaps more, and is valid. -/
structure Grows (f g : RegisterFile) : Prop where
  ext : Extends f g
  valid : g.Valid

instance : IsTrans RegisterFile Grows where
  trans _ _ _ hfg hgh := ⟨hfg.ext.trans hgh.ext, hgh.valid⟩

theorem Valid.grows (hf : f.Valid) : Grows f f := ⟨.refl f, hf⟩

/-- A register that belongs to a slot which the file got at number `n` or later. -/
def FreshFrom (g : RegisterFile) (n : Nat) (r : Reg) : Prop :=
  g.owns r = true ∧ n ≤ g.slotKey r

theorem FreshFrom.grows (h : f.FreshFrom n r) (hf : f.Valid) (hg : Grows f g) :
    g.FreshFrom n r := by
  refine ⟨hg.ext.owns h.1, ?_⟩
  rw [hg.ext.slotKey hf (owns_iff.1 h.1).2]
  exact h.2

theorem slotKey_of_base (hview : (f.data r.id).view = none) (hset : (f.data r.id).aliasSet = none) :
    f.slotKey r = r.id := by
  simp [slotKey, baseOf, resolve, hview, hset]

end RegisterFile

open RegisterFile

theorem meets_create (hf : f.Valid) (cls : RegisterClass) (size : Nat) :
    Meets Grows (RegisterM.create cls size) f fun r g =>
      r = f.handle f.size ∧ g.size = f.size + 1 ∧ g.owns r = true ∧ g.slotKey r = f.size := by
  refine .get_bind (.liftM_bind hf.grows ?_)
  rintro ⟨r, g⟩ hcreate
  obtain ⟨hext, hsize, rfl, hvalid, index, hdata⟩ := of_create_eq_ok hcreate
  refine .set_bind ⟨hext, hvalid hf⟩ (.pure (hvalid hf).grows ⟨rfl, hsize, ?_, ?_⟩)
  · exact owns_iff.2 ⟨hext.tape.symm, by simp [hsize, handle]⟩
  · refine slotKey_of_base ?_ ?_ <;> simp only [handle, hdata]

theorem meets_viewOf (hf : f.Valid) (hr : f.owns r) (start size : Nat) :
    Meets Grows (RegisterM.viewOf r start size) f fun v g =>
      g.owns v = true ∧ g.slotKey v = f.slotKey r := by
  refine .get_bind (.liftM_bind hf.grows ?_)
  rintro ⟨v, g⟩ hview
  obtain ⟨hext, hvalid, hv, hbase, -⟩ := of_viewOf_eq_ok hf hr hview
  refine .set_bind ⟨hext, hvalid⟩ (.pure hvalid.grows ⟨hv, ?_⟩)
  rw [slotKey_eq_keyOf, slotKey_eq_keyOf, hbase, hext.keyOf (hf.baseOf_lt (owns_iff.1 hr).2)]

theorem meets_instruction (hf : f.Valid) (opcode : Opcode) (domain : FieldDomain) (size : Nat)
    (operands : List Operand) :
    Meets Grows (RegisterM.instruction opcode domain size operands) f fun i g =>
      g = f ∧ make opcode domain size operands f = .ok i := by
  refine .get_bind ⟨hf.grows, ?_⟩
  intro i g h
  rw [run_liftM] at h
  exact ⟨(Prod.mk.inj h).2.symm, (Prod.mk.inj h).1⟩

/-! ## Renaming -/

namespace Template

variable {map map' : Renaming}

def OwnedImages (g : RegisterFile) (map : Renaming) : Prop :=
  ∀ ⦃base image⦄, map.lookup base = some image → g.owns image = true

/-- The renaming `map'` has the images of `map`, and otherwise registers that are new from `n`
on. -/
structure Renames (n : Nat) (g : RegisterFile) (map map' : Renaming) : Prop where
  owned : OwnedImages g map'
  old : ∀ {base image}, map.lookup base = some image → map'.lookup base = some image
  new : ∀ {base image}, map'.lookup base = some image →
    map.lookup base = some image ∨ n ≤ g.slotKey image

theorem Renames.refl (h : OwnedImages g map) : Renames n g map map := ⟨h, id, .inl⟩

theorem Renames.trans {map'' : Renaming} (h : Renames n f map map') (hf : f.Valid) (hg : Grows f g)
    (h' : Renames n g map' map'') : Renames n g map map'' where
  owned := h'.owned
  old hb := h'.old (h.old hb)
  new {base image} hb := by
    rcases h'.new hb with hb | hb
    · rcases h.new hb with hold | hnew
      · exact .inl hold
      · rw [← hg.ext.slotKey hf (owns_iff.1 (h.owned hb)).2] at hnew
        exact .inr hnew
    · exact .inr hb

/-- The register `r'` is of the slot that stands for the base register of `r`. -/
def Image (t : Template) (map : Renaming) (g : RegisterFile) (r r' : Reg) : Prop :=
  g.owns r' = true ∧
    ∃ image, map.lookup (t.regs.baseOf r) = some image ∧ g.slotKey r' = g.slotKey image

variable {image : Reg} {j : Instruction} {args : List Reg}

theorem Image.mono (h : Image t map f r r') (hf : f.Valid) (hmap : OwnedImages f map)
    (hg : Grows f g) (hr : Renames n g map map') : Image t map' g r r' := by
  obtain ⟨howns, image, hlookup, hkey⟩ := h
  refine ⟨hg.ext.owns howns, image, hr.old hlookup, ?_⟩
  rw [hg.ext.slotKey hf (owns_iff.1 howns).2,
    hg.ext.slotKey hf (owns_iff.1 (hmap hlookup)).2, hkey]

theorem OwnedImages.grows (h : OwnedImages f map) (hg : Grows f g) : OwnedImages g map :=
  fun _ _ hb => hg.ext.owns (h hb)

theorem meets_image (hf : f.Valid) (hr : Renames n f map map')
    (hl : map'.lookup (t.regs.baseOf r) = some image) (start size : Nat) :
    Meets Grows (if (t.regs.data r.id).view.isNone then pure (image, map') else do
        let view ← RegisterM.viewOf image start size
        pure (view, map') : RegisterM (Reg × Renaming)) f fun result g =>
      Renames n g map result.2 ∧ Image t result.2 g r result.1 := by
  split
  · exact .pure hf.grows ⟨hr, hr.owned hl, image, hl, rfl⟩
  · refine .bind (meets_viewOf hf (hr.owned hl) start size) ?_
    rintro v g hg ⟨hv, hkey⟩
    refine .pure hg.valid.grows ⟨hr.trans hf hg (.refl (hr.owned.grows hg)), hv, image, hl, ?_⟩
    rw [hkey, hg.ext.slotKey hf (owns_iff.1 (hr.owned hl)).2]

theorem meets_rename (t : Template) (hf : f.Valid) (hmap : OwnedImages f map) (hn : n ≤ f.size)
    (r : Reg) (written : Bool) (width : Nat) :
    Meets Grows (t.rename r written width map) f fun result g =>
      Renames n g map result.2 ∧ Image t result.2 g r result.1 := by
  unfold rename
  simp only []
  split
  · rename_i image hl
    exact .pure_bind (meets_image hf (.refl hmap) hl _ _)
  · rename_i hnone
    split
    · refine .bind (meets_create hf _ _) ?_
      rintro fresh g hg ⟨-, -, howns, hkey⟩
      refine .pure_bind (meets_image hg.valid ⟨?_, ?_, ?_⟩ lookup_cons_self _ _)
      · intro base image hl
        rw [lookup_cons] at hl
        split at hl
        · cases hl
          exact howns
        · exact hmap.grows hg hl
      · intro base image hl
        rw [lookup_cons]
        split
        · rename_i heq
          rw [eq_of_beq heq] at hl
          cases hnone.symm.trans hl
        · exact hl
      · intro base image hl
        rw [lookup_cons] at hl
        split at hl
        · cases hl
          rw [hkey]
          exact .inr hn
        · exact .inl hl
    · exact .throw_bind hf.grows

/-- The operand `o'` of the call site stands for the operand `o` of the template. -/
inductive OperandImage (t : Template) (map : Renaming) (g : RegisterFile) : Operand → Operand → Prop
  | reg {r r' : Reg} (h : Image t map g r r') : OperandImage t map g (.reg r) (.reg r')
  | other {o : Operand} (h : o.reg? = none) : OperandImage t map g o o

theorem meets_renameOperands (t : Template) (writes : List Reg) (width : Nat)
    (operands : List Operand) (hf : f.Valid) (hmap : OwnedImages f map) (hn : n ≤ f.size) :
    Meets Grows (t.renameOperands writes width operands map) f fun result g =>
      Renames n g map result.2 ∧
        Forall₂ (OperandImage t result.2 g) operands result.1 := by
  induction operands generalizing f map with
  | nil => exact .pure hf.grows ⟨.refl hmap, .nil⟩
  | cons o operands ih =>
    cases o with
    | reg r =>
      refine .bind (meets_rename t hf hmap hn r _ width) ?_
      rintro ⟨image, map₁⟩ g hg ⟨hr, himage⟩
      refine .bind (ih hg.valid hr.owned (Nat.le_trans hn hg.ext.size_le)) ?_
      rintro ⟨images, map₂⟩ h hh ⟨hr', himages⟩
      refine .pure hh.valid.grows ⟨hr.trans hg.valid hh hr', .cons ?_ himages⟩
      exact .reg (himage.mono hg.valid hr.owned hh hr')
    | callee v | number v | text v =>
      refine .bind (ih hf hmap hn) ?_
      rintro ⟨images, map₂⟩ h hh ⟨hr', himages⟩
      exact .pure hh.valid.grows ⟨hr', .cons (.other rfl) himages⟩

/-- The instruction `j` of the call site accesses the images of what the instruction `i` of the
template accesses, in the same way. -/
structure InstructionImage (t : Template) (map : Renaming) (g : RegisterFile)
    (i j : Instruction) : Prop where
  opcode : j.opcode = i.opcode
  typed : j.Typed g
  of_access : ∀ {r' a}, (r', a) ∈ j.accesses → ∃ r, (r, a) ∈ i.accesses ∧ Image t map g r r'
  access : ∀ {r a}, (r, a) ∈ i.accesses → ∃ r', (r', a) ∈ j.accesses ∧ Image t map g r r'

theorem InstructionImage.mono (h : InstructionImage t map f i j) (hf : f.Valid)
    (hmap : OwnedImages f map) (hg : Grows f g) (hr : Renames n g map map') :
    InstructionImage t map' g i j where
  opcode := h.opcode
  typed := h.typed.keeps hg.ext.keeps
  of_access ha := by
    obtain ⟨r, hr', himage⟩ := h.of_access ha
    exact ⟨r, hr', himage.mono hf hmap hg hr⟩
  access ha := by
    obtain ⟨r', hr', himage⟩ := h.access ha
    exact ⟨r', hr', himage.mono hf hmap hg hr⟩

theorem OperandImage.number?_eq {o o' : Operand} (h : OperandImage t map g o o') :
    o'.number? = o.number? := by
  cases h with
  | reg | other => rfl

theorem instructionImage_of_forall₂ (hj : j.Typed g) (hop : j.opcode = i.opcode)
    (hdom : j.domain = i.domain) (h : Forall₂ (OperandImage t map g) i.operands j.operands) :
    InstructionImage t map g i j := by
  have hlen : j.operands.length = i.operands.length := h.length_eq.symm
  have hformats : j.formats = i.formats := by
    rw [formats, formats, hop, hdom, hlen]
  have hinputs : j.callInputs = i.callInputs := by
    rw [callInputs, callInputs]
    rcases getElem?_of_forall₂ h 1 with ⟨hi, hj⟩ | ⟨o, o', hi, hj, himage⟩
    · rw [hi, hj]
    · rw [hi, hj, Option.bind_some, Option.bind_some, himage.number?_eq]
  have haccess (position : Nat) (f : OperandFormat) :
      j.accessAt position f = i.accessAt position f := by
    cases f <;> simp only [accessAt, hop, hinputs]
  have hzip {k : Nat} {f : OperandFormat} {o : Operand} {is : List Operand} :
      (i.formats.zip is)[k]? = some (f, o) ↔ i.formats[k]? = some f ∧ is[k]? = some o :=
    getElem?_zip_eq_some
  refine ⟨hop, hj, ?_, ?_⟩
  · intro r' a ha
    obtain ⟨k, f, hget, hacc⟩ := mem_accesses_iff.1 ha
    rw [hformats, hzip] at hget
    rcases getElem?_of_forall₂ h k with ⟨-, hnone⟩ | ⟨o, o', hi, hj, himage⟩
    · cases hnone.symm.trans hget.2
    · cases hj.symm.trans hget.2
      cases himage with
      | reg himage =>
        refine ⟨_, mem_accesses_iff.2 ⟨k, f, hzip.2 ⟨hget.1, hi⟩, ?_⟩, himage⟩
        rw [← haccess, hacc]
      | other hnone => cases hnone
  · intro r a ha
    obtain ⟨k, f, hget, hacc⟩ := mem_accesses_iff.1 ha
    rw [hzip] at hget
    rcases getElem?_of_forall₂ h k with ⟨hnone, -⟩ | ⟨o, o', hi, hj, himage⟩
    · cases hnone.symm.trans hget.2
    · cases hi.symm.trans hget.2
      cases himage with
      | reg himage =>
        refine ⟨_, mem_accesses_iff.2 ⟨k, f, ?_, ?_⟩, himage⟩
        · rw [hformats, hzip]
          exact ⟨hget.1, hj⟩
        · rw [haccess, hacc]
      | other hnone => cases hnone

theorem meets_expandFrom (t : Template) (width : Nat) (is : List Instruction) (hf : f.Valid)
    (hmap : OwnedImages f map) (hn : n ≤ f.size) :
    Meets Grows (t.expandFrom width is map) f fun code g =>
      ∃ map', Renames n g map map' ∧ Forall₂ (InstructionImage t map' g) is code := by
  induction is generalizing f map with
  | nil => exact .pure hf.grows ⟨map, .refl hmap, .nil⟩
  | cons i is ih =>
    unfold expandFrom
    simp only []
    split
    · exact .throw_bind hf.grows
    refine .bind (meets_renameOperands t i.writes width i.operands hf hmap hn) ?_
    rintro ⟨operands, map₁⟩ g hg ⟨hr, himages⟩
    refine .bind (meets_instruction hg.valid _ _ _ _) ?_
    rintro j _ - ⟨rfl, hmake⟩
    have hn' := Nat.le_trans hn hg.ext.size_le
    refine .bind (ih hg.valid hr.owned hn') ?_
    rintro code h hh ⟨map₂, hr', hcode⟩
    refine .pure hh.valid.grows ⟨map₂, hr.trans hg.valid hh hr', .cons ?_ hcode⟩
    obtain ⟨-, -, -, -, -, hj⟩ := of_make_eq_ok hmake
    refine InstructionImage.mono ?_ hg.valid hr.owned hh hr'
    exact instructionImage_of_forall₂ (typed_of_make hmake) (by rw [hj])
      (by rw [hj]) (by rw [hj]; exact himages)

theorem Image.slotKey_eq (h : Image t map g r r') (hl : map.lookup (t.regs.baseOf r) = some image) :
    g.slotKey r' = g.slotKey image := by
  obtain ⟨-, image', hl', hkey⟩ := h
  cases hl.symm.trans hl'
  exact hkey

theorem InstructionImage.writes (h : InstructionImage t map g i j)
    (hl : map.lookup base = some image) (hw : (Op.inst i).Writes t.regs.baseOf base) :
    (Op.inst j).Writes g.slotKey (g.slotKey image) := by
  obtain ⟨r, hr, rfl⟩ := hw
  obtain ⟨a, ha, hwa⟩ := mem_writes_iff.1 hr
  obtain ⟨r', ha', himage⟩ := h.access ha
  exact ⟨r', mem_writes_iff.2 ⟨a, ha', hwa⟩, himage.slotKey_eq hl⟩

theorem InstructionImage.reads (h : InstructionImage t map g i j)
    (hr : (Op.inst j).Reads g.slotKey key) :
    ∃ base image, map.lookup base = some image ∧ g.slotKey image = key ∧
      (Op.inst i).Reads t.regs.baseOf base := by
  obtain ⟨r', hr', rfl⟩ := hr
  obtain ⟨a, ha, hra⟩ := mem_reads_iff.1 hr'
  obtain ⟨r, ha', himage⟩ := h.of_access ha
  obtain ⟨-, image, hl, hkey⟩ := id himage
  exact ⟨_, image, hl, hkey.symm, r, mem_reads_iff.2 ⟨a, ha', hra⟩, rfl⟩

theorem exposes_of_exposes_images {is : List Instruction}
    (h : Forall₂ (InstructionImage t map g) is code)
    (hexp : Exposes g.slotKey key (code.map .inst)) :
    ∃ base image, map.lookup base = some image ∧ g.slotKey image = key ∧
      Exposes t.regs.baseOf base (is.map .inst) := by
  induction h with
  | nil => cases hexp
  | cons hij _ ih =>
    rcases hexp with hreads | ⟨hnot, hexp⟩
    · obtain ⟨base, image, hl, hkey, hr⟩ := hij.reads hreads
      exact ⟨base, image, hl, hkey, .inl hr⟩
    · obtain ⟨base, image, hl, rfl, hexp'⟩ := ih hexp
      exact ⟨base, image, hl, rfl, .inr ⟨fun hw => hnot (hij.writes hl hw), hexp'⟩⟩

/-! ## Call sites -/

/-- The instructions of a call site use its arguments and registers that are new in `g`; they read
an argument first only if the template does so, and write it if the template does. -/
structure SiteCode (t : Template) (f g : RegisterFile) (args : List Reg)
    (code : List Instruction) : Prop where
  opcode : ∀ {j}, j ∈ code → ∃ i ∈ t.instructions, j.opcode = i.opcode
  typed : ∀ {j}, j ∈ code → j.Typed g
  owned : ∀ {j r a}, j ∈ code → (r, a) ∈ j.accesses → g.owns r = true
  access : ∀ {j r a}, j ∈ code → (r, a) ∈ j.accesses → f.size ≤ g.slotKey r ∨
    ∃ (k : Nat) (param arg : Reg), t.params[k]? = some param ∧ args[k]? = some arg ∧
      g.slotKey r = f.slotKey arg ∧
      ∃ i ∈ t.instructions, ∃ s, (s, a) ∈ i.accesses ∧ t.regs.baseOf s = param.id
  reads : ∀ {key}, key < f.size → Exposes g.slotKey key (code.map .inst) →
    ∃ (k : Nat) (param arg : Reg), t.params[k]? = some param ∧ args[k]? = some arg ∧
      f.slotKey arg = key ∧
      Exposes t.regs.baseOf param.id (t.instructions.map .inst)
  writes : ∀ {k : Nat} {param arg : Reg}, t.params[k]? = some param → args[k]? = some arg →
    (∃ i ∈ t.instructions, (Op.inst i).Writes t.regs.baseOf param.id) →
    ∃ j ∈ code, (Op.inst j).Writes g.slotKey (f.slotKey arg)

theorem lookup_of_mem {α : Type} {l : List (Nat × α)} {a : α} (hmem : (k, a) ∈ l)
    (hnodup : (l.map (·.1)).Nodup) : l.lookup k = some a := by
  induction l with
  | nil => cases hmem
  | cons e l ih =>
    obtain ⟨k', b⟩ := e
    rw [map_cons, nodup_cons] at hnodup
    rcases mem_cons.1 hmem with heq | hmem
    · cases heq
      exact lookup_cons_self
    · rw [lookup_cons]
      split
      · rename_i heq
        rw [eq_of_beq heq] at hmem
        exact absurd (mem_map_of_mem hmem) hnodup.1
      · exact ih hmem hnodup.2

/-- The renaming that a call site starts with: the parameters stand for the arguments. -/
def startRenaming (t : Template) (args : List Reg) : Renaming :=
  ((t.params.map (·.id)).zip args).reverse

theorem exists_of_lookup_startRenaming (h : (t.startRenaming args).lookup base = some arg) :
    ∃ (k : Nat) (param : Reg), t.params[k]? = some param ∧ param.id = base ∧
      args[k]? = some arg := by
  obtain ⟨_, _, heq, -⟩ := lookup_eq_some_iff.1 h
  have hmem : (base, arg) ∈ (t.params.map (·.id)).zip args := by
    rw [← mem_reverse, ← startRenaming, heq]
    simp
  obtain ⟨k, hk⟩ := mem_iff_getElem?.mp hmem
  obtain ⟨hp, ha⟩ := getElem?_zip_eq_some.1 hk
  rw [getElem?_map] at hp
  obtain ⟨param, hparam, hid⟩ := Option.map_eq_some_iff.1 hp
  exact ⟨k, param, hparam, hid, ha⟩

theorem lookup_startRenaming (hnodup : (t.params.map (·.id)).Nodup)
    (hlen : args.length = t.params.length) {param : Reg} (hp : t.params[k]? = some param)
    (ha : args[k]? = some arg) : (t.startRenaming args).lookup param.id = some arg := by
  refine lookup_of_mem ?_ ?_
  · rw [startRenaming, mem_reverse]
    refine mem_of_getElem? (i := k) (getElem?_zip_eq_some.2 ⟨?_, ha⟩)
    rw [getElem?_map, hp]
    rfl
  · rw [startRenaming, map_reverse, nodup_reverse, map_fst_zip (by simp [hlen])]
    exact hnodup

theorem meets_expand (t : Template) (hf : f.Valid) (hnodup : (t.params.map (·.id)).Nodup)
    (hargs : ∀ arg ∈ args, f.owns arg) (width : Nat) :
    Meets Grows (t.expand args width) f fun code g => SiteCode t f g args code := by
  unfold expand
  simp only []
  split
  · exact .throw_bind hf.grows
  rename_i hlen
  rw [Decidable.not_not] at hlen
  have hmap : OwnedImages f (t.startRenaming args) := by
    intro base arg hl
    obtain ⟨k, -, -, -, ha⟩ := exists_of_lookup_startRenaming hl
    exact hargs arg (mem_of_getElem? ha)
  refine (meets_expandFrom t width t.instructions hf hmap (Nat.le_refl _)).mono ?_
  rintro code g hg ⟨map', hr, hcode⟩
  have hold {arg : Reg} (ha : arg ∈ args) : g.slotKey arg = f.slotKey arg :=
    hg.ext.slotKey hf (owns_iff.1 (hargs arg ha)).2
  have himage {j : Instruction} (hj : j ∈ code) :
      ∃ i ∈ t.instructions, InstructionImage t map' g i j :=
    exists_left_of_forall₂ hcode hj
  refine ⟨?_, ?_, ?_, ?_, ?_, ?_⟩
  · intro j hj
    obtain ⟨i, hi, h⟩ := himage hj
    exact ⟨i, hi, h.opcode⟩
  · intro j hj
    obtain ⟨i, -, h⟩ := himage hj
    exact h.typed
  · intro j r a hj ha
    obtain ⟨i, -, h⟩ := himage hj
    obtain ⟨r', -, howns, -⟩ := h.of_access ha
    exact howns
  · intro j r a hj ha
    obtain ⟨i, hi, h⟩ := himage hj
    obtain ⟨s, hs, -, image, hl, hkey⟩ := h.of_access ha
    rcases hr.new hl with hl | hnew
    · obtain ⟨k, param, hp, hbase, hk⟩ := exists_of_lookup_startRenaming hl
      exact .inr ⟨k, param, image, hp, hk, hkey.trans (hold (mem_of_getElem? hk)), i, hi, s, hs,
        hbase.symm⟩
    · exact .inl (hkey ▸ hnew)
  · intro key hkey hexp
    obtain ⟨base, image, hl, rfl, hexp⟩ := exposes_of_exposes_images hcode hexp
    rcases hr.new hl with hl | hnew
    · obtain ⟨k, param, hp, rfl, hk⟩ := exists_of_lookup_startRenaming hl
      exact ⟨k, param, image, hp, hk, (hold (mem_of_getElem? hk)).symm, hexp⟩
    · omega
  · rintro k param arg hp ha ⟨i, hi, hw⟩
    have hl := hr.old (lookup_startRenaming hnodup hlen hp ha)
    obtain ⟨j, hj, h⟩ := exists_right_of_forall₂ hcode hi
    refine ⟨j, hj, ?_⟩
    rw [← hold (mem_of_getElem? ha)]
    exact h.writes hl hw

/-- A template does to its parameters what its signature declares: it reads those first that are
declared as read, and writes those that are declared as written. -/
structure Honest (t : Template) : Prop where
  reads : ∀ {k : Nat} {param : Reg} {cls : RegisterClass} {access : Access},
    t.params[k]? = some param → t.signature[k]? = some (cls, access) →
    Exposes t.regs.baseOf param.id (t.instructions.map .inst) → access.reads = true
  writes : ∀ {k : Nat} {param : Reg} {cls : RegisterClass} {access : Access},
    t.params[k]? = some param → t.signature[k]? = some (cls, access) → access.writes = true →
    ∃ i ∈ t.instructions, (Op.inst i).Writes t.regs.baseOf param.id

/-- The parameters of a template are registers of their own, one for each argument, and its summary
is that of its instructions. -/
structure Parametric (t : Template) : Prop where
  nodup : (t.params.map (·.id)).Nodup
  length : t.params.length = t.signature.length
  io : t.io = t.instructions.any (·.has .io)
  touchesMemory : t.touchesMemory = t.instructions.any (·.opcode.memoryClass?.isSome)

end Template

/-! ## Calls -/

theorem MacroCall.mem_arguments_iff {pick : Access → Bool} :
    r ∈ c.arguments pick ↔ ∃ site ∈ c.sites, ∃ (k : Nat) (cls : RegisterClass) (access : Access),
      site.args[k]? = some r ∧ c.template.signature[k]? = some (cls, access) ∧
        pick access := by
  simp only [arguments, mem_flatMap, mem_map, mem_filter]
  refine exists_congr fun site => and_congr_right fun _ => ?_
  constructor
  · rintro ⟨⟨q, cls, access⟩, ⟨hmem, hpick⟩, rfl⟩
    obtain ⟨k, hk⟩ := mem_iff_getElem?.mp hmem
    obtain ⟨ha, hs⟩ := getElem?_zip_eq_some.1 hk
    exact ⟨k, cls, access, ha, hs, hpick⟩
  · rintro ⟨k, cls, access, ha, hs, hpick⟩
    exact ⟨(r, cls, access), ⟨mem_of_getElem? (getElem?_zip_eq_some.2 ⟨ha, hs⟩), hpick⟩,
      rfl⟩

/-- The instructions are those of a call. If the call fits, they use its arguments and registers
that are new in `g`; if its template is honest as well, they read first only what the call reads,
and write all that the call writes. -/
structure Replaces (fits : Prop) (f g : RegisterFile) (c : MacroCall) (code : List Instruction) :
    Prop where
  typed : ∀ {j}, j ∈ code → j.Typed g
  owned : ∀ {j r a}, j ∈ code → (r, a) ∈ j.accesses → g.owns r = true
  keys : fits → ∀ {j r a}, j ∈ code → (r, a) ∈ j.accesses →
    f.size ≤ g.slotKey r ∨ ∃ q ∈ (Op.call c).registers, g.slotKey r = f.slotKey q
  reads : fits → c.template.Honest → ∀ {key}, key < f.size →
    Exposes g.slotKey key (code.map .inst) → (Op.call c).Reads f.slotKey key
  writes : fits → c.template.Honest → ∀ {key}, (Op.call c).Writes f.slotKey key →
    ∃ j ∈ code, (Op.inst j).Writes g.slotKey key

theorem Op.Writes.grows (hf : f.Valid) (hg : Grows f g)
    (hi : ∀ {r a}, (r, a) ∈ i.accesses → f.owns r) (h : (Op.inst i).Writes f.slotKey key) :
    (Op.inst i).Writes g.slotKey key := by
  obtain ⟨r, hr, hkey⟩ := h
  obtain ⟨a, ha, -⟩ := mem_writes_iff.1 hr
  exact ⟨r, hr, (hg.ext.slotKey hf (owns_iff.1 (hi ha)).2).trans hkey⟩

namespace Replaces

variable {fits : Prop} {site : CallSite} {sites : List CallSite} {rest : List Instruction}

theorem nil (f : RegisterFile) (t : Template) : Replaces fits f f ⟨t, []⟩ [] where
  typed := nofun
  owned := nofun
  keys := nofun
  reads := nofun
  writes := by
    rintro - - key ⟨r, hr, -⟩
    cases hr

theorem of_imp {fits' : Prop} (h : Replaces fits f g c code) (himp : fits' → fits) :
    Replaces fits' f g c code :=
  ⟨h.typed, h.owned, fun hfits => h.keys (himp hfits), fun hfits => h.reads (himp hfits),
    fun hfits => h.writes (himp hfits)⟩

/-- The code of a call is the code of its sites one after the other. -/
theorem cons {h : RegisterFile} (hf : f.Valid) (hfg : Grows f g) (hgh : Grows g h)
    (ht : t.Parametric) (hargs : ∀ s ∈ site :: sites, ∀ arg ∈ s.args, f.owns arg)
    (hcode : Template.SiteCode t f g site.args code) (hrest : Replaces fits g h ⟨t, sites⟩ rest) :
    Replaces fits f h ⟨t, site :: sites⟩ (code ++ rest) := by
  have hold {s : CallSite} {arg : Reg} (hs : s ∈ site :: sites) (ha : arg ∈ s.args) :
      g.slotKey arg = f.slotKey arg :=
    hfg.ext.slotKey hf (owns_iff.1 (hargs s hs arg ha)).2
  have hcodeKey {j : Instruction} {r : Reg} {a : Access} (hj : j ∈ code)
      (ha : (r, a) ∈ j.accesses) : h.slotKey r = g.slotKey r :=
    hgh.ext.slotKey hfg.valid (owns_iff.1 (hcode.owned hj ha)).2
  refine ⟨?_, ?_, ?_, ?_, ?_⟩
  · intro j hj
    rcases mem_append.1 hj with hj | hj
    · exact (hcode.typed hj).keeps hgh.ext.keeps
    · exact hrest.typed hj
  · intro j r a hj ha
    rcases mem_append.1 hj with hj | hj
    · exact hgh.ext.owns (hcode.owned hj ha)
    · exact hrest.owned hj ha
  · intro hfits j r a hj ha
    rcases mem_append.1 hj with hj | hj
    · rw [hcodeKey hj ha]
      rcases hcode.access hj ha with hnew | ⟨k, -, arg, -, harg, hkey, -⟩
      · exact .inl hnew
      · exact .inr ⟨arg, mem_flatMap.2 ⟨site, by simp, mem_of_getElem? harg⟩, hkey⟩
    · rcases hrest.keys hfits hj ha with hnew | ⟨q, hq, hkey⟩
      · exact .inl (Nat.le_trans hfg.ext.size_le hnew)
      · obtain ⟨s, hs, hqs⟩ := mem_flatMap.1 hq
        have hs' : s ∈ site :: sites := .tail _ hs
        exact .inr ⟨q, mem_flatMap.2 ⟨s, hs', hqs⟩, hkey.trans (hold hs' hqs)⟩
  · intro hfits hhonest key hlt hexp
    rw [map_append] at hexp
    rcases exposes_append.1 hexp with hexp | ⟨-, hexp⟩
    · rw [Exposes.congr (f := g) (fun op hop r hr => ?_)] at hexp
      · obtain ⟨k, param, arg, hp, ha, hkey, hexp⟩ := hcode.reads hlt hexp
        have hk : k < t.signature.length := by
          rw [← ht.length]
          exact (List.getElem?_eq_some_iff.1 hp).1
        have hsig : t.signature[k]? = some t.signature[k] := List.getElem?_eq_getElem hk
        refine ⟨arg, MacroCall.mem_arguments_iff.2 ⟨site, by simp, k, _, _, ha, hsig, ?_⟩, hkey⟩
        exact hhonest.reads hp hsig hexp
      · obtain ⟨j, hj, rfl⟩ := mem_map.1 hop
        obtain ⟨⟨q, a⟩, ha, rfl⟩ := mem_map.1 hr
        exact hcodeKey hj ha
    · obtain ⟨r, hr, hkey⟩ := hrest.reads hfits hhonest (Nat.lt_of_lt_of_le hlt hfg.ext.size_le) hexp
      obtain ⟨s, hs, k, cls, access, ha, hsig, hpick⟩ := MacroCall.mem_arguments_iff.1 hr
      have hs' : s ∈ site :: sites := .tail _ hs
      refine ⟨r, MacroCall.mem_arguments_iff.2 ⟨s, hs', k, cls, access, ha, hsig, hpick⟩, ?_⟩
      rw [← hold hs' (mem_of_getElem? ha), hkey]
  · rintro hfits hhonest key ⟨r, hr, hkey⟩
    obtain ⟨s, hs, k, cls, access, ha, hsig, hpick⟩ := MacroCall.mem_arguments_iff.1 hr
    rcases mem_cons.1 hs with rfl | hs'
    · have hk : k < t.params.length := by
        rw [ht.length]
        exact (List.getElem?_eq_some_iff.1 hsig).1
      have hp : t.params[k]? = some t.params[k] := List.getElem?_eq_getElem hk
      obtain ⟨j, hj, hw⟩ := hcode.writes hp ha (hhonest.writes hp hsig hpick)
      rw [hkey] at hw
      exact ⟨j, mem_append_left _ hj, hw.grows hfg.valid hgh (hcode.owned hj)⟩
    · rw [← hold hs (mem_of_getElem? ha)] at hkey
      obtain ⟨j, hj, hw⟩ := hrest.writes hfits hhonest
        ⟨r, MacroCall.mem_arguments_iff.2 ⟨s, hs', k, cls, access, ha, hsig, hpick⟩, hkey⟩
      exact ⟨j, mem_append_right _ hj, hw⟩

end Replaces

end SecureTape
