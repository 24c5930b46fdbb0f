import SecureTape.Proofs.Arrangements
import SecureTape.Proofs.Scheduling

/-!
# Inlined macro calls

A macro call is known to the scheduler by its arguments and the summary of its template. Main
statements:
1. `Op.conflicts_of_disturbs`: if two operations account for instructions of which one disturbs the
   other, then the operations conflict.
2. `BuildM.meets_expandUnits`: the operations of a block account for the code that inlining their
   calls gives, up to slots that are new and belong to one operation each.
-/

namespace SecureTape

open Action RegisterFile Program List Op

variable {cls : RegisterClass} {f g g' h : RegisterFile} {t : Template} {i : Instruction} {op : Op}
  {code : List Instruction} {lo : Nat} {codeOf codeOf' : Nat → List Instruction}
  {owner owner' : Nat → Nat} {ks : List Nat} {us : List (List Nat)} {fresh fresh' : Nat → Prop}

/-- The instruction `i` changes what `j` uses: it writes a slot that `j` accesses, it stores to
memory that `j` accesses, or it does input or output and `j` does so too or communicates. -/
inductive Instruction.Disturbs (regs : RegisterFile) (i j : Instruction) : Prop
  | slot {r s : Reg} (hr : r ∈ i.writes) (hs : s ∈ j.reads ∨ s ∈ j.writes)
      (h : regs.slotKey r = regs.slotKey s)
  | memory {cls : RegisterClass} (hi : i.opcode.memoryClass? = some cls)
      (hj : j.opcode.memoryClass? = some cls) (h : i.has .memWrite = true)
  | channel (hi : i.has .io = true) (hj : j.has .io = true ∨ j.communicates = true)

/-! ## Operations that account for instructions -/

/-- The operation on the registers of `f` accounts for what the instruction does on those of `g`,
except on slots that are fresh. -/
structure Op.AccountsFor (f g : RegisterFile) (fresh : Nat → Prop) (op : Op) (i : Instruction) :
    Prop where
  reads : ∀ {r}, r ∈ i.reads → fresh (g.slotKey r) ∨ op.Reads f.slotKey (g.slotKey r)
  writes : ∀ {r}, r ∈ i.writes → fresh (g.slotKey r) ∨ op.Writes f.slotKey (g.slotKey r)
  memory : ∀ {cls}, i.opcode.memoryClass? = some cls → cls ∈ op.stores ∨
    cls ∈ op.loads ∧ i.has .memWrite = false
  io : i.has .io = true → op.isIo = true
  communicates : i.communicates = true → 0 < op.weight

namespace Op

variable {a b : Op} {j : Instruction}

theorem memory_mem_footprint (h : cls ∈ a.stores) : .memory cls ∈ (a.footprint f).writes := by
  simp [footprint, h]

theorem memory_mem_footprint_reads (h : cls ∈ a.loads) : .memory cls ∈ (a.footprint f).reads := by
  simp [footprint, h]

theorem channel_mem_footprint (h : a.isIo) : .channel ∈ (a.footprint f).writes := by
  simp [footprint, h]

theorem channel_mem_footprint_reads (h : a.isIo = false) (hw : 0 < a.weight) :
    .channel ∈ (a.footprint f).reads := by
  simp [footprint, h, hw]

/-- Instructions that disturb each other belong to operations that conflict, unless they meet at a
fresh slot. -/
theorem conflicts_of_disturbs (hi : a.AccountsFor f g fresh i) (hj : b.AccountsFor f g fresh' j)
    (hfresh : ∀ {key}, fresh key → ¬fresh' key)
    (hold : ∀ {key}, fresh key → ¬b.Reads f.slotKey key ∧ ¬b.Writes f.slotKey key)
    (hold' : ∀ {key}, fresh' key → ¬a.Writes f.slotKey key) (h : i.Disturbs g j) :
    (a.footprint f).conflicts (b.footprint f) := by
  rw [Footprint.conflicts_iff]
  cases h with
  | @slot r s hr hs hkey =>
    rcases hi.writes hr with hnew | ⟨r', hr', hkey'⟩
    · rw [hkey] at hnew
      rcases hs with hs | hs
      · exact (hj.reads hs).elim (fun h => (hfresh hnew h).elim) fun h => ((hold hnew).1 h).elim
      · exact (hj.writes hs).elim (fun h => (hfresh hnew h).elim) fun h => ((hold hnew).2 h).elim
    · have hwrites : a.Writes f.slotKey (g.slotKey s) := ⟨r', hr', hkey'.trans hkey⟩
      refine ⟨.slot (f.slotKey r'), .inl ⟨slot_mem_writes hr', ?_⟩⟩
      rcases hs with hs | hs
      · rcases hj.reads hs with hnew | ⟨s', hs', hkey''⟩
        · exact (hold' hnew hwrites).elim
        · rw [hkey', hkey, ← hkey'']
          exact .inl (slot_mem_reads hs')
      · rcases hj.writes hs with hnew | ⟨s', hs', hkey''⟩
        · exact (hold' hnew hwrites).elim
        · rw [hkey', hkey, ← hkey'']
          exact .inr (slot_mem_writes hs')
  | @memory cls hci hcj hw =>
    refine ⟨.memory cls, .inl ⟨?_, ?_⟩⟩
    · rcases hi.memory hci with h | ⟨-, h⟩
      · exact memory_mem_footprint h
      · cases hw.symm.trans h
    · rcases hj.memory hcj with h | ⟨h, -⟩
      · exact .inr (memory_mem_footprint h)
      · exact .inl (memory_mem_footprint_reads h)
  | channel hio hother =>
    refine ⟨.channel, .inl ⟨channel_mem_footprint (hi.io hio), ?_⟩⟩
    cases hb : b.isIo with
    | true => exact .inr (channel_mem_footprint hb)
    | false =>
      refine .inl (channel_mem_footprint_reads hb ?_)
      rcases hother with h | h
      · cases hb.symm.trans (hj.io h)
      · exact hj.communicates h

theorem accountsFor_self (fresh : Nat → Prop) (i : Instruction) :
    (inst i).AccountsFor f f fresh i where
  reads hr := .inr ⟨_, hr, rfl⟩
  writes hr := .inr ⟨_, hr, rfl⟩
  memory {cls} hc := by
    cases hw : i.has .memWrite with
    | true => exact .inl (by simp [stores, hw, hc])
    | false => exact .inr ⟨by simp [loads, hw, hc], rfl⟩
  io h := h
  communicates h := by simp [weight, h]

theorem AccountsFor.mono (h : a.AccountsFor f g fresh i) (hi : i.Typed g) (hg : g.Valid)
    (hgg' : Grows g g') (himp : ∀ {key}, key < g.size → fresh key → fresh' key) :
    a.AccountsFor f g' fresh' i := by
  have hkey {r : Reg} (hr : r ∈ (inst i).registers) :
      g'.slotKey r = g.slotKey r ∧ g.slotKey r < g.size := by
    have howns := hi.owned.owns r hr
    have hlt := (owns_iff.1 howns).2
    exact ⟨hgg'.ext.slotKey hg hlt, hg.keyOf_lt (hg.baseOf_lt hlt)⟩
  refine ⟨?_, ?_, h.memory, h.io, h.communicates⟩
  · intro r hr
    obtain ⟨heq, hlt⟩ := hkey (mem_registers_of_mem_reads hr)
    rw [heq]
    exact (h.reads hr).imp_left (himp hlt)
  · intro r hr
    obtain ⟨heq, hlt⟩ := hkey (mem_registers_of_mem_writes hr)
    rw [heq]
    exact (h.writes hr).imp_left (himp hlt)

theorem AccountsFor.rebase {f' : RegisterFile} (h : a.AccountsFor f' g fresh i)
    (hkey : ∀ r ∈ a.registers, f'.slotKey r = f.slotKey r) : a.AccountsFor f g fresh i := by
  refine ⟨?_, ?_, h.memory, h.io, h.communicates⟩
  · intro r hr
    refine (h.reads hr).imp_right ?_
    rintro ⟨q, hq, heq⟩
    exact ⟨q, hq, (hkey q (mem_registers_of_mem_reads hq)).symm.trans heq⟩
  · intro r hr
    refine (h.writes hr).imp_right ?_
    rintro ⟨q, hq, heq⟩
    exact ⟨q, hq, (hkey q (mem_registers_of_mem_writes hq)).symm.trans heq⟩

theorem AccountsFor.sites {sites sites' : List CallSite}
    (h : (call ⟨t, sites⟩).AccountsFor f g fresh i) (hsub : sites ⊆ sites') :
    (call ⟨t, sites'⟩).AccountsFor f g fresh i := by
  have hargs {pick : Access → Bool} {r : Reg} (hr : r ∈ MacroCall.arguments ⟨t, sites⟩ pick) :
      r ∈ MacroCall.arguments ⟨t, sites'⟩ pick := by
    obtain ⟨site, hsite, hr⟩ := mem_flatMap.1 hr
    exact mem_flatMap.2 ⟨site, hsub hsite, hr⟩
  refine ⟨?_, ?_, h.memory, h.io, h.communicates⟩
  · intro r hr
    exact (h.reads hr).imp_right fun ⟨q, hq, hkey⟩ => ⟨q, hargs hq, hkey⟩
  · intro r hr
    exact (h.writes hr).imp_right fun ⟨q, hq, hkey⟩ => ⟨q, hargs hq, hkey⟩

end Op

/-! ## Templates -/

namespace Template

variable {args : List Reg}

/-- The template reads only parameters that are declared as read, and writes only parameters that
are declared as written. -/
def Restrained (t : Template) : Prop :=
  ∀ e ∈ t.params.zip t.signature, ∀ i ∈ t.instructions,
    ((Op.inst i).Reads t.regs.baseOf e.1.id → e.2.2.reads = true) ∧
      ((Op.inst i).Writes t.regs.baseOf e.1.id → e.2.2.writes = true)

instance (t : Template) : Decidable t.Restrained :=
  inferInstanceAs (Decidable (∀ e ∈ t.params.zip t.signature, ∀ i ∈ t.instructions,
    ((Op.inst i).Reads t.regs.baseOf e.1.id → e.2.2.reads = true) ∧
      ((Op.inst i).Writes t.regs.baseOf e.1.id → e.2.2.writes = true)))

/-- The code is what the template gives for a site, on registers that extend those of `f`. -/
def ExpandsTo (t : Template) (f : RegisterFile) (site : CallSite) (code : List Instruction) : Prop :=
  ∃ g g', Extends f g ∧ (t.expand site.args site.width).run g = (.ok code, g')

theorem SiteCode.accountsFor (h : SiteCode t f g args code) (ht : t.Parametric) (hr : t.Restrained)
    (hg : g.Valid) (hi : i ∈ code) (width : Nat) :
    (call ⟨t, [⟨args, width⟩]⟩).AccountsFor f g (fun key => f.size ≤ key ∧ key < g.size) i := by
  obtain ⟨j, hj, hopcode⟩ := h.opcode hi
  have hhas (flag : OpFlag) : i.has flag = j.has flag := by
    rw [Instruction.has, Instruction.has, hopcode]
  have hlt {r : Reg} {a : Access} (ha : (r, a) ∈ i.accesses) : g.slotKey r < g.size :=
    hg.keyOf_lt (hg.baseOf_lt (owns_iff.1 (h.owned hi ha)).2)
  have harg {pick : Access → Bool} {r : Reg} {a : Access} (ha : (r, a) ∈ i.accesses)
      (hpick : ∀ {k : Nat} {param : Reg} {cls : RegisterClass} {access : Access} {s : Reg}
        {j : Instruction}, t.params[k]? = some param → t.signature[k]? = some (cls, access) →
        j ∈ t.instructions → (s, a) ∈ j.accesses → t.regs.baseOf s = param.id →
        pick access = true) :
      (f.size ≤ g.slotKey r ∧ g.slotKey r < g.size) ∨
        ∃ q ∈ MacroCall.arguments ⟨t, [⟨args, width⟩]⟩ pick, f.slotKey q = g.slotKey r := by
    rcases h.access hi ha with hnew | ⟨k, param, arg, hp, harg, hkey, j, hj, s, hs, hbase⟩
    · exact .inl ⟨hnew, hlt ha⟩
    · have hk : k < t.signature.length := ht.length ▸ (List.getElem?_eq_some_iff.1 hp).1
      have hsig : t.signature[k]? = some t.signature[k] := List.getElem?_eq_getElem hk
      exact .inr ⟨arg, MacroCall.mem_arguments_iff.2 ⟨_, List.mem_singleton_self _, k, _, _, harg,
        hsig, hpick hp hsig hj hs hbase⟩, hkey.symm⟩
  have hzip {k : Nat} {param : Reg} {e : RegisterClass × Access} (hp : t.params[k]? = some param)
      (hs : t.signature[k]? = some e) : (param, e) ∈ t.params.zip t.signature :=
    mem_of_getElem? (getElem?_zip_eq_some.2 ⟨hp, hs⟩)
  refine ⟨?_, ?_, ?_, ?_, ?_⟩
  · intro r hread
    obtain ⟨a, ha, hreads⟩ := Instruction.mem_reads_iff.1 hread
    refine harg ha ?_
    intro k param cls access s j hp hs hj hacc hbase
    exact (hr _ (hzip hp hs) j hj).1 ⟨s, Instruction.mem_reads_iff.2 ⟨a, hacc, hreads⟩, hbase⟩
  · intro r hwrite
    obtain ⟨a, ha, hwrites⟩ := Instruction.mem_writes_iff.1 hwrite
    refine harg ha ?_
    intro k param cls access s j hp hs hj hacc hbase
    exact (hr _ (hzip hp hs) j hj).2 ⟨s, Instruction.mem_writes_iff.2 ⟨a, hacc, hwrites⟩, hbase⟩
  · intro cls hcls
    have htouches : t.touchesMemory = true := by
      rw [ht.touchesMemory, any_eq_true]
      exact ⟨j, hj, by rw [← hopcode, hcls]; rfl⟩
    refine .inl ?_
    simp only [stores, htouches, if_true]
    cases cls <;> decide
  · intro hio
    show t.io = true
    rw [ht.io, any_eq_true]
    exact ⟨j, hj, by rw [← hhas]; exact hio⟩
  · intro _
    exact Nat.lt_of_lt_of_le Nat.one_pos (Nat.le_max_right _ _)

end Template

/-! ## The code of operations -/

namespace Op

/-- Code for an operation on the registers of `f`. An instruction is its own code; the code of a
call is that of its sites, one after the other. -/
inductive Unfolds (f : RegisterFile) : Op → List Instruction → Prop
  | inst (i : Instruction) : Unfolds f (.inst i) [i]
  | call {c : MacroCall} {codes : List (List Instruction)}
      (h : List.Forall₂ (c.template.ExpandsTo f) c.sites codes) :
      Unfolds f (.call c) codes.flatten

theorem Unfolds.mono (hfg : Extends f g) (h : op.Unfolds g code) : op.Unfolds f code := by
  cases h with
  | inst i => exact .inst i
  | call h =>
    refine .call (h.imp ?_)
    rintro site code ⟨g₁, g₂, hext, hrun⟩
    exact ⟨g₁, g₂, hfg.trans hext, hrun⟩

/-- The code is that of the operation, which accounts for all of it. -/
structure Spelled (f g : RegisterFile) (fresh : Nat → Prop) (op : Op) (code : List Instruction) :
    Prop where
  unfolds : op.Unfolds f code
  typed : ∀ i ∈ code, i.Typed g
  accounts : ∀ i ∈ code, op.AccountsFor f g fresh i

theorem Spelled.mono (h : op.Spelled f g fresh code) (hg : g.Valid) (hgg' : Grows g g')
    (himp : ∀ {key}, key < g.size → fresh key → fresh' key) :
    op.Spelled f g' fresh' code :=
  ⟨h.unfolds, fun i hi => (h.typed i hi).keeps hgg'.ext.keeps,
    fun i hi => (h.accounts i hi).mono (h.typed i hi) hg hgg' himp⟩

theorem spelled_inst (hi : (inst i).Owned f) (hf : f.Valid) (hfg : Grows f g) :
    (inst i).Spelled f g fresh [i] := by
  have htyped := hi.typed i rfl
  refine ⟨.inst i, ?_, ?_⟩
  · intro j hj
    rw [mem_singleton.1 hj]
    exact htyped.keeps hfg.ext.keeps
  · intro j hj
    rw [mem_singleton.1 hj]
    exact (accountsFor_self fresh i).mono htyped hf hfg fun _ h => h

end Op

/-- The operations with numbers have code, and each new slot from `lo` on belongs to the operation
that owns it. -/
def SpelledAll (f g : RegisterFile) (lo : Nat) (codeOf : Nat → List Instruction) (owner : Nat → Nat)
    (es : List (Nat × Op)) : Prop :=
  ∀ e ∈ es, e.2.Spelled f g (fun key => lo ≤ key ∧ owner key = e.1) (codeOf e.1)

/-- What has been spelled out before and after some registers were made. -/
theorem exists_spelledAll_append {es es' : List (Nat × Op)}
    (hs : SpelledAll f g lo codeOf owner es) (hg : g.Valid) (hlo : lo ≤ g.size) (hgh : Grows g h)
    (hs' : SpelledAll f h g.size codeOf' owner' es')
    (hdisjoint : ∀ e ∈ es, ∀ e' ∈ es', e.1 ≠ e'.1) :
    ∃ codeOf'' owner'', SpelledAll f h lo codeOf'' owner'' (es ++ es') ∧
      (∀ e ∈ es, codeOf'' e.1 = codeOf e.1) ∧ ∀ e ∈ es', codeOf'' e.1 = codeOf' e.1 := by
  have hold (e : Nat × Op) (he : e ∈ es) :
      (if e.1 ∈ es.map (·.1) then codeOf e.1 else codeOf' e.1) = codeOf e.1 :=
    if_pos (mem_map_of_mem he)
  have hnew (e : Nat × Op) (he : e ∈ es') :
      (if e.1 ∈ es.map (·.1) then codeOf e.1 else codeOf' e.1) = codeOf' e.1 := by
    refine if_neg ?_
    intro hmem
    obtain ⟨d, hd, heq⟩ := mem_map.1 hmem
    exact hdisjoint d hd e he heq
  refine ⟨fun k => if k ∈ es.map (·.1) then codeOf k else codeOf' k,
    fun key => if key < g.size then owner key else owner' key, ?_, hold, hnew⟩
  intro e he
  rcases mem_append.1 he with he | he
  · simp only [hold e he]
    refine (hs e he).mono hg hgh ?_
    rintro key hlt ⟨hle, howner⟩
    rw [if_pos hlt]
    exact ⟨hle, howner⟩
  · simp only [hnew e he]
    refine (hs' e he).mono hgh.valid hgh.valid.grows ?_
    rintro key - ⟨hle, howner⟩
    rw [if_neg (Nat.not_lt.2 hle)]
    exact ⟨Nat.le_trans hlo hle, howner⟩

namespace BuildM

variable {p : Program} {id : TapeId}

/-! ## Inlining -/

def inlineSite (id : TapeId) (node : NodeId) (t : Template) (site : CallSite) :
    BuildM (List Instruction) := do
  onTree fun tree => ((), tree.addUsage node (t.extra.scale (.finite site.width)))
  onRegisters id (t.expand site.args site.width)

/-- A tape gets registers, and what decides between inlining and calls stays as it is. -/
structure Inlines (id : TapeId) (p q : Program) : Prop where
  advances : Advances id (fun _ => False) p q
  policy : q.policy = p.policy
  singular : (q.tapeAt id).singular = (p.tapeAt id).singular

instance : IsTrans Program (Inlines id) where
  trans _ _ _ hpq hqr := ⟨trans_of (Advances id _) hpq.advances hqr.advances,
    hqr.policy.trans hpq.policy, hqr.singular.trans hpq.singular⟩

theorem inlines_refl (hp : p.Coherent) (hid : id < p.tapes.size) : Inlines id p p :=
  ⟨hp.advances hid, rfl, rfl⟩

theorem meets_inlineSite (hp : p.Coherent) (hid : id < p.tapes.size)
    (hstate : (p.tapeAt id).TakesRegisters) (node : NodeId) (ht : t.Parametric) {site : CallSite}
    (hargs : ∀ arg ∈ site.args, (p.tapeAt id).regs.owns arg) :
    Meets (Inlines id) (inlineSite id node t site) p fun code q =>
      (t.expand site.args site.width).run (p.tapeAt id).regs = (.ok code, (q.tapeAt id).regs) ∧
        Template.SiteCode t (p.tapeAt id).regs (q.tapeAt id).regs site.args code := by
  refine .bind (Q := fun _ q => q.tapeAt id = p.tapeAt id) ?_ ?_
  · exact .of_run_ok (run_onTree _ p) ⟨advances_tree hp hid _, rfl, rfl⟩ rfl
  · intro _ q hq htape
    rw [← htape] at hargs hstate ⊢
    have hid' := hq.advances.lt hid
    have hexpand := t.meets_expand (hq.advances.coherent.sound hid').valid ht.nodup hargs
      site.width
    have hrun := hexpand.ends
    refine (meets_onRegisters (Q := fun code g => (t.expand site.args site.width).run
      (q.tapeAt id).regs = (.ok code, g) ∧ Template.SiteCode t (q.tapeAt id).regs g site.args code)
      ⟨hrun, fun code g h => ⟨h, hexpand.result code g h⟩⟩ fun g hg => ?_).mono ?_
    · refine ⟨advances_registers hq.advances.coherent hid' hstate hg, rfl, ?_⟩
      rw [tapeAt_modifyTape_self hid']
    · rintro code q' - ⟨g, -, hQ, rfl⟩
      rw [tapeAt_modifyTape_self hid']
      exact hQ

section Sites

variable {f : RegisterFile} (hf : f.Valid) {t : Template} (ht : t.Parametric) (hr : t.Restrained)
  (node : NodeId)

include hf ht hr

theorem meets_inlineSitesOf (sites : List CallSite) (hp : p.Coherent) (hid : id < p.tapes.size)
    (hstate : (p.tapeAt id).TakesRegisters) (hfp : Grows f (p.tapeAt id).regs)
    (hargs : ∀ site ∈ sites, ∀ arg ∈ site.args, f.owns arg) :
    Meets (Inlines id) (sites.mapM (inlineSite id node t)) p fun codes q =>
      Forall₂ (t.ExpandsTo f) sites codes ∧ (call ⟨t, sites⟩).Spelled f (q.tapeAt id).regs
        (fun key => (p.tapeAt id).regs.size ≤ key ∧ key < (q.tapeAt id).regs.size)
        codes.flatten := by
  induction sites generalizing p with
  | nil => exact .pure (inlines_refl hp hid) ⟨.nil, .call .nil, nofun, nofun⟩
  | cons site sites ih =>
    have hsite := hargs site (.head _)
    rw [mapM_cons]
    refine .bind (meets_inlineSite hp hid hstate node ht fun arg harg =>
      hfp.ext.owns (hsite arg harg)) ?_
    rintro code q hq ⟨hrun, hcode⟩
    have hgrows := hq.advances.regs
    refine .bind (ih hq.advances.coherent (hq.advances.lt hid)
      (hq.advances.takesRegisters hstate) (trans_of Grows hfp hgrows)
      fun s hs => hargs s (.tail _ hs)) ?_
    rintro codes q' hq' ⟨hexpands, hcodes⟩
    have hgrows' := hq'.advances.regs
    refine .pure (inlines_refl hq'.advances.coherent (hq'.advances.lt (hq.advances.lt hid))) ?_
    have hall : Forall₂ (t.ExpandsTo f) (site :: sites) (code :: codes) :=
      .cons ⟨_, _, hfp.ext, hrun⟩ hexpands
    refine ⟨hall, .call hall, ?_, ?_⟩
    · intro i hi
      rw [flatten_cons] at hi
      rcases mem_append.1 hi with hi | hi
      · exact (hcode.typed hi).keeps hgrows'.ext.keeps
      · exact hcodes.typed i hi
    · intro i hi
      rw [flatten_cons] at hi
      rcases mem_append.1 hi with hi | hi
      · have haccounts := hcode.accountsFor ht hr hgrows.valid hi site.width
        refine ((haccounts.rebase ?_).sites ?_).mono (hcode.typed hi) hgrows.valid hgrows' ?_
        · intro r hr
          obtain ⟨s, hs, hr⟩ := mem_flatMap.1 hr
          rw [mem_singleton.1 hs] at hr
          exact hfp.ext.slotKey hf (owns_iff.1 (hsite r hr)).2
        · exact cons_subset.2 ⟨.head _, nil_subset _⟩
        · rintro key hlt ⟨hle, -⟩
          exact ⟨hle, Nat.lt_of_lt_of_le hlt hgrows'.ext.size_le⟩
      · refine ((hcodes.accounts i hi).sites (subset_cons_self site sites)).mono
          (hcodes.typed i hi) hgrows'.valid hgrows'.valid.grows ?_
        rintro key hlt ⟨hle, -⟩
        exact ⟨Nat.le_trans hgrows.ext.size_le hle, hlt⟩

theorem meets_inlineMembers (es : List (Nat × MacroCall)) (hnodup : (es.map (·.1)).Nodup)
    (htemplate : ∀ e ∈ es, e.2.template = t) (hp : p.Coherent) (hid : id < p.tapes.size)
    (hstate : (p.tapeAt id).TakesRegisters) (hfp : Grows f (p.tapeAt id).regs)
    (hargs : ∀ e ∈ es, ∀ r ∈ (call e.2).registers, f.owns r) :
    Meets (Inlines id) ((es.flatMap (·.2.sites)).mapM (inlineSite id node t)) p fun codes q =>
      ∃ codeOf owner, codes.flatten = es.flatMap (fun e => codeOf e.1) ∧
        SpelledAll f (q.tapeAt id).regs (p.tapeAt id).regs.size codeOf owner
          (es.map fun e => (e.1, .call e.2)) := by
  induction es generalizing p with
  | nil => exact .pure (inlines_refl hp hid) ⟨fun _ => [], fun _ => 0, rfl, nofun⟩
  | cons e es ih =>
    obtain ⟨k, t', sites⟩ := e
    obtain rfl : t' = t := htemplate _ (.head _)
    rw [map_cons, nodup_cons] at hnodup
    rw [flatMap_cons, mapM_append]
    refine .bind (meets_inlineSitesOf hf ht hr node sites hp hid hstate hfp ?_) ?_
    · intro site hsite arg harg
      exact hargs _ (.head _) arg (mem_flatMap.2 ⟨site, hsite, harg⟩)
    · rintro codes q hq ⟨-, hspelled⟩
      have hgrows := hq.advances.regs
      refine .bind (ih hnodup.2 (fun e he => htemplate e (.tail _ he))
        hq.advances.coherent (hq.advances.lt hid) (hq.advances.takesRegisters hstate)
        (trans_of Grows hfp hgrows) fun e he => hargs e (.tail _ he)) ?_
      rintro codes' q' hq' ⟨codeOf', owner', hcodes', hspelled'⟩
      refine .pure (inlines_refl hq'.advances.coherent
        (hq'.advances.lt (hq.advances.lt hid))) ?_
      have hfirst : SpelledAll f (q.tapeAt id).regs (p.tapeAt id).regs.size
          (fun _ => codes.flatten) (fun _ => k) [(k, .call ⟨t', sites⟩)] := by
        intro e he
        rw [mem_singleton.1 he]
        exact hspelled.mono hgrows.valid hgrows.valid.grows fun _ h => ⟨h.1, rfl⟩
      obtain ⟨codeOf, owner, hall, hold, hnew⟩ := exists_spelledAll_append hfirst hgrows.valid
        hgrows.ext.size_le hq'.advances.regs hspelled' (by
          intro e he e' he' heq
          obtain ⟨d, hd, rfl⟩ := mem_map.1 he'
          rw [mem_singleton.1 he] at heq
          exact hnodup.1 (mem_map.2 ⟨d, hd, heq.symm⟩))
      refine ⟨codeOf, owner, ?_, hall⟩
      rw [flatten_append, flatMap_cons, hcodes', hold _ (mem_singleton_self _)]
      congr 1
      exact flatMap_congr fun e he => (hnew _ (mem_map_of_mem he)).symm

end Sites

/-! ## Units -/

def numbered (ops : List Op) (ks : List Nat) : List (Nat × Op) :=
  ks.filterMap fun k => ops[k]?.map (k, ·)

variable {ops : List Op} {u : List Nat}

theorem mem_numbered {e : Nat × Op} : e ∈ numbered ops ks ↔ e.1 ∈ ks ∧ ops[e.1]? = some e.2 := by
  simp only [numbered, mem_filterMap, Option.map_eq_some_iff]
  constructor
  · rintro ⟨k, hk, op, hop, rfl⟩
    exact ⟨hk, hop⟩
  · rintro ⟨hk, hop⟩
    exact ⟨e.1, hk, e.2, hop, rfl⟩

theorem map_snd_numbered (ops : List Op) (ks : List Nat) :
    (numbered ops ks).map (·.2) = ks.filterMap (ops[·]?) := by
  rw [numbered, map_filterMap]
  refine filterMap_congr fun k _ => ?_
  rw [Option.map_map]
  exact Option.map_id'

theorem map_fst_numbered (h : ∀ k ∈ ks, (ops[k]?).isSome) : (numbered ops ks).map (·.1) = ks := by
  induction ks with
  | nil => rfl
  | cons k ks ih =>
    obtain ⟨op, hop⟩ := Option.isSome_iff_exists.1 (h k (.head _))
    rw [numbered, filterMap_cons, hop]
    exact congrArg (k :: ·) (ih fun l hl => h l (.tail _ hl))

theorem numbered_append (ops : List Op) (ks ls : List Nat) :
    numbered ops (ks ++ ls) = numbered ops ks ++ numbered ops ls := filterMap_append

theorem gather?_calls {ds : List MacroCall} (hds : ds ≠ []) (ht : ∀ d ∈ ds, d.template = t) :
    gather? (ds.map .call) = some (.call ⟨t, ds.flatMap (·.sites)⟩) := by
  obtain ⟨d, ds, rfl⟩ := exists_cons_of_ne_nil hds
  obtain rfl := ht d (.head _)
  have hfold (ds : List MacroCall) (d : MacroCall) : (ds.map call).foldl absorb (.call d) =
      .call ⟨d.template, d.sites ++ ds.flatMap (·.sites)⟩ := by
    induction ds generalizing d with
    | nil => simp
    | cons e ds ih =>
      rw [map_cons, foldl_cons]
      show (ds.map call).foldl absorb (.call (d.absorb e)) = _
      rw [ih]
      simp [MacroCall.absorb]
  rw [map_cons, gather?, hfold, flatMap_cons]

/-- The code of a unit: an instruction stands for itself, and a call for the code of its members. -/
def unitCode (codeOf : Nat → List Instruction) (e : List Nat × Op) : List Op :=
  match e.2 with
  | .inst i => [.inst i]
  | .call _ => (e.1.flatMap codeOf).map .inst

theorem exists_eq_map {α β : Type} {F : α → β} {l : List β} (h : ∀ b ∈ l, ∃ a, b = F a) :
    ∃ as : List α, l = as.map F := by
  induction l with
  | nil => exact ⟨[], rfl⟩
  | cons b l ih =>
    obtain ⟨a, rfl⟩ := h b (.head _)
    obtain ⟨as, rfl⟩ := ih fun c hc => h c (.tail _ hc)
    exact ⟨a :: as, rfl⟩

/-- All members of a unit are instructions, or all are calls of the template of the unit. -/
theorem unit_cases (ht : SameTemplates ops) {m : Op} (hfound : ∀ k ∈ u, (ops[k]?).isSome)
    (hgather : gather? (u.filterMap (ops[·]?)) = some m)
    (halike : (∃ k, u = [k]) ∨ ∃ b, ∀ k ∈ u, ops[k]?.bind batch? = some b) :
    (∃ i, m = .inst i ∧ ∀ k op, k ∈ u → ops[k]? = some op → ∃ j, op = .inst j) ∨
      ∃ es : List (Nat × MacroCall), numbered ops u = es.map (fun e => (e.1, .call e.2)) ∧
        ∃ c, m = .call c ∧ (∀ e ∈ es, e.2.template = c.template) ∧
          c.sites = es.flatMap (·.2.sites) := by
  have hkind (k : Nat) (op : Op) (hk : k ∈ u) (hop : ops[k]? = some op) :
      op = m ∨ ∃ b, op.batch? = some b ∧ m.batch? = some b := by
    rcases halike with ⟨l, rfl⟩ | ⟨b, hb⟩
    · rw [mem_singleton.1 hk] at hop
      rw [filterMap_cons, hop] at hgather
      exact .inl (Option.some.inj hgather)
    · have hbatch {l : Nat} {o : Op} (hl : l ∈ u) (ho : ops[l]? = some o) : o.batch? = some b := by
        have hbl := hb l hl
        rwa [ho] at hbl
      refine .inr ⟨b, hbatch hk hop, batch?_of_gather? hgather ?_⟩
      intro o ho
      obtain ⟨l, hl, ho⟩ := mem_filterMap.1 ho
      exact hbatch hl ho
  cases m with
  | inst i =>
    refine .inl ⟨i, rfl, ?_⟩
    intro k op hk hop
    rcases hkind k op hk hop with heq | ⟨b, hb, hm⟩
    · exact ⟨i, heq⟩
    · cases op with
      | inst j => exact ⟨j, rfl⟩
      | call d =>
        simp only [batch?, Option.ite_none_right_eq_some, Option.some.injEq] at hb hm
        cases hb.trans hm.2.symm
  | call c =>
    have hcall (k : Nat) (op : Op) (hk : k ∈ u) (hop : ops[k]? = some op) :
        ∃ d, op = .call d ∧ d.key = c.key := by
      rcases hkind k op hk hop with heq | ⟨b, hb, hm⟩
      · exact ⟨c, heq, rfl⟩
      · cases op with
        | inst j =>
          simp only [batch?, Option.ite_none_right_eq_some, Option.some.injEq] at hb hm
          cases hb.2.trans hm.symm
        | call d =>
          exact ⟨d, rfl, Batch.call.inj (Option.some.inj (hb.trans hm.symm))⟩
    obtain ⟨es, hes⟩ : ∃ es : List (Nat × MacroCall),
        numbered ops u = es.map (fun e => (e.1, .call e.2)) := by
      refine exists_eq_map ?_
      intro e he
      obtain ⟨hk, hop⟩ := mem_numbered.1 he
      obtain ⟨d, hd, -⟩ := hcall e.1 e.2 hk hop
      exact ⟨(e.1, d), Prod.ext rfl hd⟩
    have hmem {e : Nat × MacroCall} (he : e ∈ es) : e.1 ∈ u ∧ ops[e.1]? = some (.call e.2) :=
      mem_numbered.1 (hes ▸ mem_map_of_mem he : ((e.1, .call e.2) : Nat × Op) ∈ numbered ops u)
    have hops : u.filterMap (ops[·]?) = (es.map (·.2)).map .call := by
      rw [← map_snd_numbered, hes, map_map, map_map]
      rfl
    have hne : es.map (·.2) ≠ [] := by
      intro hnil
      rw [hops, hnil] at hgather
      cases hgather
    have hkeys {e : Nat × MacroCall} (he : e ∈ es) : e.2.key = c.key := by
      obtain ⟨hk, hop⟩ := hmem he
      obtain ⟨d, hd, hkey⟩ := hcall e.1 _ hk hop
      cases hd
      exact hkey
    obtain ⟨e₀, he₀⟩ := exists_mem_of_ne_nil es fun hnil => hne (by rw [hnil]; rfl)
    have hsame (e : Nat × MacroCall) (he : e ∈ es) : e.2.template = e₀.2.template := by
      obtain ⟨-, hop⟩ := hmem he
      obtain ⟨-, hop₀⟩ := hmem he₀
      exact ht e.2 e₀.2 (mem_of_getElem? hop) (mem_of_getElem? hop₀)
        ((hkeys he).trans (hkeys he₀).symm)
    rw [hops, gather?_calls hne (t := e₀.2.template) (by
      intro d hd
      obtain ⟨e, he, rfl⟩ := mem_map.1 hd
      exact hsame e he)] at hgather
    cases hgather
    exact .inr ⟨es, hes, _, rfl, hsame, by rw [flatMap_map]⟩

theorem unitCode_congr (m : Op) (h : ∀ k ∈ u, codeOf k = codeOf' k) :
    unitCode codeOf (u, m) = unitCode codeOf' (u, m) := by
  cases m with
  | inst i => rfl
  | call d => exact congrArg (List.map inst) (flatMap_congr h)

theorem exists_unitCode_cons (m : Op) (out : List Op) (hnodup : (u :: us).flatten.Nodup)
    (hfound : ∀ k ∈ (u :: us).flatten, (ops[k]?).isSome) (hg : g.Valid) (hlo : lo ≤ g.size)
    (hgh : Grows g h) (hs : SpelledAll f g lo codeOf owner (numbered ops u))
    (hs' : SpelledAll f h g.size codeOf' owner' (numbered ops us.flatten)) :
    ∃ codeOf'' owner'', unitCode codeOf (u, m) ++ (us.zip out).flatMap (unitCode codeOf') =
        ((u :: us).zip (m :: out)).flatMap (unitCode codeOf'') ∧
      SpelledAll f h lo codeOf'' owner'' (numbered ops (u :: us).flatten) := by
  rw [flatten_cons, nodup_append] at hnodup
  obtain ⟨codeOf'', owner'', hall, hold, hnew⟩ := exists_spelledAll_append hs hg hlo hgh hs' (by
    intro e he e' he'
    exact hnodup.2.2 e.1 (mem_numbered.1 he).1 e'.1 (mem_numbered.1 he').1)
  have hget {v : List Nat} {k : Nat} (hk : k ∈ v) (hmem : k ∈ (u :: us).flatten) :
      ∃ op, (k, op) ∈ numbered ops v := by
    obtain ⟨op, hop⟩ := Option.isSome_iff_exists.1 (hfound k hmem)
    exact ⟨op, mem_numbered.2 ⟨hk, hop⟩⟩
  refine ⟨codeOf'', owner'', ?_, ?_⟩
  · rw [zip_cons_cons, flatMap_cons]
    congr 1
    · refine unitCode_congr m fun k hk => ?_
      obtain ⟨op, he⟩ := hget hk (mem_append_left _ hk)
      exact (hold _ he).symm
    · refine flatMap_congr ?_
      rintro ⟨v, o⟩ hv
      refine unitCode_congr o fun k hk => ?_
      have hmem : k ∈ us.flatten := mem_flatten.2 ⟨v, (of_mem_zip hv).1, hk⟩
      obtain ⟨op, he⟩ := hget hmem (mem_append_right _ hmem)
      exact (hnew _ he).symm
  · rw [flatten_cons, numbered_append]
    exact hall

/-- Where a policy inlines all calls, the operations that units stand for account for the code. -/
theorem meets_expandUnits (hf : f.Valid) (node : NodeId) (hops : ∀ op ∈ ops, op.Owned f)
    (ht : SameTemplates ops)
    (htemplates : ∀ c, .call c ∈ ops → c.template.Parametric ∧ c.template.Restrained)
    {out : List Op} (hnodup : us.flatten.Nodup) (hfound : ∀ k ∈ us.flatten, (ops[k]?).isSome)
    (hgather : Forall₂ (fun u m => gather? (u.filterMap (ops[·]?)) = some m) us out)
    (halike : ∀ u ∈ us, (∃ k, u = [k]) ∨ ∃ b, ∀ k ∈ u, ops[k]?.bind batch? = some b)
    (hp : p.Coherent) (hid : id < p.tapes.size) (hstate : (p.tapeAt id).TakesRegisters)
    (hfp : Grows f (p.tapeAt id).regs)
    (hinline : ∀ c, .call c ∈ out → p.policy.usesCall c.totalWidth (p.tapeAt id).singular = false) :
    Meets (Inlines id) (expandCalls id node out) p fun code q => ∃ codeOf owner,
      code = (us.zip out).flatMap (unitCode codeOf) ∧
        SpelledAll f (q.tapeAt id).regs (p.tapeAt id).regs.size codeOf owner
          (numbered ops us.flatten) := by
  induction hgather generalizing p with
  | nil => exact .pure (inlines_refl hp hid) ⟨fun _ => [], fun _ => 0, rfl, nofun⟩
  | @cons u m us out hm hrest ih =>
    have hdistinct := hnodup
    rw [flatten_cons, nodup_append] at hdistinct
    have hfound₁ (k : Nat) (hk : k ∈ u) := hfound k (mem_append_left _ hk)
    have hcases := unit_cases ht hfound₁ hm (halike u (.head _))
    -- the rest of the units, from the program that the first one leads to
    have hnext {q : Program} (hq : Inlines id p q) :=
      ih hdistinct.2.1 (fun k hk => hfound k (mem_append_right _ hk))
        (fun v hv => halike v (.tail _ hv)) hq.advances.coherent
        (hq.advances.lt hid) (hq.advances.takesRegisters hstate)
        (trans_of Grows hfp hq.advances.regs) (fun c hc => by
          rw [hq.policy, hq.singular]
          exact hinline c (.tail _ hc))
    rcases hcases with ⟨i, rfl, hinst⟩ | ⟨es, hes, c, rfl, htemplate, hsites⟩
    · refine .bind (hnext (inlines_refl hp hid)) ?_
      rintro code q hq ⟨codeOf', owner', rfl, hs'⟩
      refine .pure (inlines_refl hq.advances.coherent (hq.advances.lt hid)) ?_
      have hs : SpelledAll f (p.tapeAt id).regs (p.tapeAt id).regs.size
          (fun k => (ops[k]?.bind inst?).toList) (fun _ => 0) (numbered ops u) := by
        intro e he
        obtain ⟨hk, hop⟩ := mem_numbered.1 he
        obtain ⟨j, hj⟩ := hinst e.1 e.2 hk hop
        have howned := hops e.2 (mem_of_getElem? hop)
        rw [hj] at hop howned
        simp only [hop, hj]
        exact spelled_inst howned hf hfp
      exact exists_unitCode_cons (.inst i) out hnodup hfound hfp.valid (Nat.le_refl _)
        hq.advances.regs hs hs'
    · have hmem {e : Nat × MacroCall} (he : e ∈ es) : ops[e.1]? = some (.call e.2) :=
        (mem_numbered.1 (hes ▸ mem_map_of_mem he :
          ((e.1, .call e.2) : Nat × Op) ∈ numbered ops u)).2
      have hfst : es.map (·.1) = u := by
        rw [← map_fst_numbered hfound₁, hes, map_map]
        rfl
      have hmacro : c.template.Parametric ∧ c.template.Restrained := by
        have hne : es ≠ [] := by
          rintro rfl
          rw [← map_snd_numbered, hes] at hm
          cases hm
        obtain ⟨e, he⟩ := exists_mem_of_ne_nil es hne
        rw [← htemplate e he]
        exact htemplates e.2 (mem_of_getElem? (hmem he))
      refine .get_bind ?_
      simp only [hinline c mem_cons_self, Bool.false_eq_true, if_false]
      refine .bind (Q := fun code q => ∃ codeOf owner, code = u.flatMap codeOf ∧
        SpelledAll f (q.tapeAt id).regs (p.tapeAt id).regs.size codeOf owner (numbered ops u)) ?_ ?_
      · refine .bind (Q := fun codes q => ∃ codeOf owner, codes.flatten = u.flatMap codeOf ∧
          SpelledAll f (q.tapeAt id).regs (p.tapeAt id).regs.size codeOf owner
            (numbered ops u)) ?_ ?_
        · rw [hsites]
          refine (meets_inlineMembers hf hmacro.1 hmacro.2 node es ?_ htemplate hp hid hstate hfp
            ?_).mono ?_
          · rw [hfst]
            exact hdistinct.1
          · exact fun e he => (hops _ (mem_of_getElem? (hmem he))).owns
          · rintro codes q - ⟨codeOf, owner, hcodes, hs⟩
            refine ⟨codeOf, owner, ?_, hes ▸ hs⟩
            rw [hcodes, ← hfst, flatMap_map]
        · rintro codes q hq ⟨codeOf, owner, hcodes, hs⟩
          exact .pure (inlines_refl hq.advances.coherent (hq.advances.lt hid))
            ⟨codeOf, owner, hcodes, hs⟩
      · rintro code q hq ⟨codeOf, owner, rfl, hs⟩
        refine .bind (hnext hq) ?_
        rintro code' q' hq' ⟨codeOf', owner', rfl, hs'⟩
        exact .pure (inlines_refl hq'.advances.coherent
          (hq'.advances.lt (hq.advances.lt hid))) (exists_unitCode_cons (.call c) out hnodup hfound
            hq.advances.regs.valid hq.advances.regs.ext.size_le hq'.advances.regs hs hs')

end BuildM

end SecureTape
