import SecureTape.Program.Scheduled
import SecureTape.Proofs.Builders

/-!
# Expanding macro calls

When a tape is scheduled its macro calls become instructions of their own, or calls of tapes that
are made for them. Main statements:
1. `Program.Advances`: what holds of a program while a tape of it is being scheduled.
2. `BuildM.StandsFor`: code that can take the place of other operations. Optimized code stands for
   what was optimized.
3. `BuildM.meets_expandCalls`: the code for the macro calls of a block stands for them.
-/

namespace SecureTape

open Action RegisterFile Program List

variable {id other : TapeId} {f : Tape → Tape} {t : Template} {g : RegisterFile} {c : MacroCall}
  {p : Program} {touched : BlockId → Prop}

/-- The signature finds an argument at every site of the call, and a parameter of every tape that
was made for batches of the macro. -/
structure MacroCall.Fits (p : Program) (c : MacroCall) : Prop where
  args : ∀ {site}, site ∈ c.sites → c.template.signature.length ≤ site.args.length
  params : ∀ {width entry}, p.macroTapes.lookup (c.key, width) = some entry →
    c.template.signature.length ≤ entry.2.length

namespace Program

variable {q : Program}

/-! ## Frames -/

/-- The program evolves beside a tape. -/
structure Leaves (id : TapeId) (p q : Program) : Prop extends Evolves p q where
  tapeAt : q.tapeAt id = p.tapeAt id
  macros : q.macros = p.macros
  macroTapes : q.macroTapes = p.macroTapes

instance : IsTrans Program (Leaves id) where
  trans _ _ _ hpq hqr := ⟨trans_of Evolves hpq.toEvolves hqr.toEvolves, hqr.tapeAt.trans hpq.tapeAt,
    hqr.macros.trans hpq.macros, hqr.macroTapes.trans hpq.macroTapes⟩

theorem Coherent.leaves (hp : p.Coherent) : Leaves id p p := ⟨.refl hp, rfl, rfl, rfl⟩

theorem Coherent.editOther (hp : p.Coherent) (hne : id ≠ other)
    (h : other < p.tapes.size → Tape.Edits p.options False (p.tapeAt other) (f (p.tapeAt other))) :
    Leaves id p (p.modifyTape other f) := by
  refine ⟨hp.quietEdits h, ?_, rfl, rfl⟩
  rw [tapeAt_modifyTape, if_neg fun h => hne h.1]

/-- The registers of a tape grow, and of its blocks only those with a number in `touched` change.
Tapes that are made for batches of macro calls have the parameters of the macro. -/
structure Advances (id : TapeId) (touched : BlockId → Prop) (p q : Program) : Prop
    extends Evolves p q where
  size : (q.tapeAt id).blocks.size = (p.tapeAt id).blocks.size
  block : ∀ {i}, ¬touched i → (q.tapeAt id).block i = (p.tapeAt id).block i
  state : (q.tapeAt id).state = (p.tapeAt id).state
  regs : Grows (p.tapeAt id).regs (q.tapeAt id).regs
  macros : q.macros = p.macros
  fits : ∀ {c : MacroCall}, p.macros.lookup c.key = some c.template → c.Fits p → c.Fits q

instance : IsTrans Program (Advances id touched) where
  trans _ _ _ hpq hqr := by
    refine ⟨trans_of Evolves hpq.toEvolves hqr.toEvolves, hqr.size.trans hpq.size,
      fun hi => (hqr.block hi).trans (hpq.block hi), hqr.state.trans hpq.state,
      trans_of Grows hpq.regs hqr.regs, hqr.macros.trans hpq.macros, ?_⟩
    intro c hc hfits
    refine hqr.fits ?_ (hpq.fits hc hfits)
    rw [hpq.macros]
    exact hc

theorem Leaves.advances (h : Leaves id p q) (hp : p.Coherent) (hid : id < p.tapes.size) :
    Advances id touched p q := by
  refine ⟨h.toEvolves, by rw [h.tapeAt], fun _ => by rw [h.tapeAt], by rw [h.tapeAt], ?_, h.macros, ?_⟩
  · rw [h.tapeAt]
    exact (hp.sound hid).valid.grows
  · rintro c - ⟨hargs, hparams⟩
    refine ⟨hargs, ?_⟩
    rw [h.macroTapes]
    exact hparams

theorem Coherent.advances (hp : p.Coherent) (hid : id < p.tapes.size) : Advances id touched p p :=
  hp.leaves.advances hp hid

namespace Advances

theorem takesRegisters (h : Advances id touched p q) (hstate : (p.tapeAt id).TakesRegisters) :
    (q.tapeAt id).TakesRegisters := by
  unfold Tape.TakesRegisters
  rw [h.state]
  exact hstate

theorem mono {touched' : BlockId → Prop} (h : Advances id touched p q)
    (himp : ∀ i, touched i → touched' i) : Advances id touched' p q :=
  ⟨h.toEvolves, h.size, fun hi => h.block fun hi' => hi (himp _ hi'), h.state, h.regs, h.macros, h.fits⟩

theorem edit (hp : p.Coherent) (hid : id < p.tapes.size)
    (h : Tape.Edit p.options False (p.tapeAt id) (f (p.tapeAt id)))
    (hsize : (f (p.tapeAt id)).blocks.size = (p.tapeAt id).blocks.size)
    (hblock : ∀ i, ¬touched i → (f (p.tapeAt id)).block i = (p.tapeAt id).block i)
    (hstate : (f (p.tapeAt id)).state = (p.tapeAt id).state)
    (hregs : Grows (p.tapeAt id).regs (f (p.tapeAt id)).regs) :
    Advances id touched p (p.modifyTape id f) := by
  have htape := tapeAt_modifyTape p id f id
  rw [if_pos ⟨rfl, hid⟩] at htape
  refine ⟨hp.quietEdit fun _ => h, ?_, ?_, ?_, ?_, rfl, fun _ h => ⟨h.args, h.params⟩⟩
  · rw [htape, hsize]
  · intro i hi
    rw [htape, hblock i hi]
  · rw [htape, hstate]
  · rw [htape]
    exact hregs

end Advances

end Program

namespace BuildM

/-! ## Tapes for batches -/

section MacroTape

theorem meets_modifyOther (hne : id ≠ other) (hp : p.Coherent) (hlt : other < p.tapes.size)
    (h : Tape.Edits p.options False (p.tapeAt other) (f (p.tapeAt other))) :
    Meets (Leaves id) (modify fun p : Program => p.modifyTape other f : BuildM PUnit) p
      fun _ q => q.tapeAt other = f (p.tapeAt other) := by
  refine .modify (hp.editOther hne fun _ => h) ?_
  rw [tapeAt_modifyTape_self hlt]

theorem meets_onOther {α : Type} {act : RegisterM α} {Q : α → RegisterFile → Prop}
    (hne : id ≠ other) (hp : p.Coherent) (hlt : other < p.tapes.size)
    (hstate : (p.tapeAt other).state = .building) (h : Meets Grows act (p.tapeAt other).regs Q) :
    Meets (Leaves id) (onRegisters other act) p fun a q =>
      (q.tapeAt other).state = .building ∧ Q a (q.tapeAt other).regs := by
  refine (meets_onRegisters h fun g hg => hp.editOther hne fun _ => .single
    (.registers (.inl hstate) ⟨hg.ext.keeps, hg.valid⟩)).mono ?_
  rintro a q - ⟨g, -, hQ, rfl⟩
  rw [tapeAt_modifyTape_self hlt]
  exact ⟨hstate, hQ⟩

theorem meets_exportParams (hne : id ≠ other) (width : Nat) (signature : MacroSignature)
    (hp : p.Coherent) (hlt : other < p.tapes.size) (hstate : (p.tapeAt other).state = .building) :
    Meets (Leaves id) (exportParams other width signature) p fun rs q =>
      rs.length = signature.length ∧ (∀ r ∈ rs, (q.tapeAt other).regs.owns r = true) ∧
        (q.tapeAt other).state = .building := by
  induction signature generalizing p with
  | nil => exact .pure hp.leaves ⟨rfl, nofun, hstate⟩
  | cons entry signature ih =>
    have hcreate := meets_create (hp.sound hlt).valid entry.1 width
    refine .bind (meets_onOther hne hp hlt hstate hcreate) ?_
    rintro r q hq ⟨hqstate, -, -, hr, -⟩
    have hqlt := hq.lt hlt
    have hshape := SameShape.markExported (q.tapeAt other).regs r
    have hcovers := hshape.covers (hq.coherent.sound hqlt).valid
    have hparams : ∀ r' ∈ (q.tapeAt other).params ++ [r], r' ∈ (q.tapeAt other).params ∨
        ((q.tapeAt other).regs.markExported r).owns r' = true := by
      intro r' hr'
      rcases mem_append.1 hr' with hr' | hr'
      · exact .inl hr'
      · rw [mem_singleton.1 hr', hshape.owns]
        exact .inr hr
    refine .bind (meets_modifyOther hne hq.coherent hqlt
      (.tail (.single (.registers (.inl hqstate) hcovers))
        (.note ⟨rfl, rfl, rfl, rfl, rfl, rfl, rfl, rfl, hparams⟩))) ?_
    rintro _ q₁ hq₁ htape
    have hq₁lt := hq₁.lt hqlt
    refine .bind (ih hq₁.coherent hq₁lt (by rw [htape]; exact hqstate)) ?_
    rintro rs q₂ hq₂ ⟨hlen, hrs, hstate₂⟩
    refine .pure hq₂.coherent.leaves ⟨by simp [hlen], ?_, hstate₂⟩
    intro r' hr'
    rcases mem_cons.1 hr' with rfl | hr'
    · refine hq₂.owns hq₁.coherent hq₁lt ?_
      rw [htape, hshape.owns]
      exact hr
    · exact hrs r' hr'

theorem meets_pushAll (hne : id ≠ other) (is : List Instruction) (hp : p.Coherent)
    (hlt : other < p.tapes.size) (his : ∀ i ∈ is, (Op.inst i).Owned (p.tapeAt other).regs) :
    Meets (Leaves id) (pushAll other is) p fun _ _ => True := by
  induction is generalizing p with
  | nil => exact .pure hp.leaves trivial
  | cons i is ih =>
    refine .bind (Q := fun _ q => ∀ i ∈ is, (Op.inst i).Owned (q.tapeAt other).regs) ?_ ?_
    · refine .get_bind (.liftM_bind hp.leaves ?_)
      intro t ht
      obtain ⟨hb, hopen, rfl⟩ := of_push_eq_ok ht
      have hi := his i (.head _)
      refine (meets_modifyOther hne hp hlt (.single (.push hb hopen hi nofun))).mono ?_
      intro _ q _ htape i' hi'
      rw [htape]
      exact his i' (.tail _ hi')
    · intro _ q hq his'
      exact ih hq.coherent (hq.lt hlt) his'

theorem meets_onTreeBeside {α : Type} (hp : p.Coherent)
    (f : RequirementTree → α × RequirementTree) :
    Meets (Leaves id) (onTree f) p fun _ _ => True :=
  .of_run (run_onTree f p) ⟨hp.beside rfl, rfl, rfl, rfl⟩ fun _ _ => trivial

theorem meets_addBeside (hp : p.Coherent) (hid : id < p.tapes.size) (name : String)
    (kind : TapeKind) (singular : Bool) :
    Meets (Leaves id) (addTape name kind singular) p fun other q =>
      id ≠ other ∧ other < q.tapes.size ∧ (q.tapeAt other).state = .building := by
  obtain ⟨full, root, tree, hrun⟩ := run_addTape name kind singular p
  have hnew := evolves_addTape hp full kind singular root tree
  have htape (j : TapeId) := tapeAt_push { p with tree }
    (Tape.new p.tapes.size full kind singular root) j
  have hne : id ≠ p.tapes.size := Nat.ne_of_lt hid
  refine .of_run_ok hrun ⟨hnew, (htape id).trans (if_neg hne), rfl, rfl⟩ ⟨hne, by simp, ?_⟩
  rw [htape, if_pos rfl]
  rfl

/-- The tape for batches of a template has the parameters of its signature. -/
theorem meets_macroTape (hp : p.Coherent) (hid : id < p.tapes.size) (ht : t.Parametric)
    (width : Nat) :
    Meets (Leaves id) (macroTape t width) p fun entry _ =>
      entry.2.length = t.signature.length := by
  refine .bind (meets_addBeside hp hid _ _ _) ?_
  rintro other q₁ hq₁ ⟨hne, hlt₁, hstate₁⟩
  refine .bind (meets_exportParams hne width t.signature hq₁.coherent hlt₁ hstate₁) ?_
  rintro params q₂ hq₂ ⟨hlen, howned, hstate₂⟩
  have hlt₂ := hq₂.lt hlt₁
  have hexpand := Template.meets_expand t (hq₂.coherent.sound hlt₂).valid ht.nodup howned
    width
  refine .bind (meets_onOther hne hq₂.coherent hlt₂ hstate₂ hexpand) ?_
  rintro code q₃ hq₃ ⟨-, hcode⟩
  have hlt₃ := hq₃.lt hlt₂
  refine .bind (meets_pushAll hne code hq₃.coherent hlt₃ ?_) ?_
  · exact fun i hi => (hcode.typed hi).owned
  · rintro _ q₄ hq₄ -
    have hnote : Leaves id q₄ (q₄.modifyTape other ({ · with bitLengths := t.bitLengths })) :=
      hq₄.coherent.editOther hne fun _ => .single (.note (.of_eq rfl))
    refine .modify_bind hnote (.get_bind ?_)
    refine .bind (meets_onTreeBeside hnote.coherent _) ?_
    rintro _ q₅ hq₅ -
    exact .pure hq₅.coherent.leaves hlen

end MacroTape

theorem notMem_of_lookup_eq_none {α β : Type} [BEq α] [LawfulBEq α] {entries : List (α × β)}
    {key : α} (h : entries.lookup key = none) : key ∉ entries.map (·.1) := by
  intro hmem
  obtain ⟨entry, hentry, rfl⟩ := mem_map.1 hmem
  simpa using lookup_eq_none_iff.1 h entry hentry

theorem meets_batchTape (hp : p.Coherent) (hid : id < p.tapes.size)
    (ht : p.macros.lookup t.key = some t) (width : Nat) :
    Meets (Advances id touched) (batchTape t width) p fun entry q => q.tapeAt id = p.tapeAt id ∧
      ((∀ e, p.macroTapes.lookup (t.key, width) = some e → t.signature.length ≤ e.2.length) →
        t.signature.length ≤ entry.2.length) := by
  refine .get_bind ?_
  split
  · rename_i entry hentry
    exact .pure (hp.advances hid) ⟨rfl, fun h => h entry hentry⟩
  · rename_i hnone
    refine .bind ((meets_macroTape hp hid (hp.parametric ht) width).weaken
      fun _ h => h.advances hp hid) ?_
    rintro entry q - ⟨hq, hlen⟩
    have hqid := hq.lt hid
    have hnote : Evolves q { q with macroTapes := ((t.key, width), entry) :: q.macroTapes } :=
      hq.coherent.aside rfl rfl rfl (fun _ => rfl) fun h =>
        nodup_cons.2 ⟨hq.macroTapes.symm ▸ notMem_of_lookup_eq_none hnone, h⟩
    have hadvance : Advances id touched q
        { q with macroTapes := ((t.key, width), entry) :: q.macroTapes } := by
      refine ⟨hnote, rfl, fun _ => rfl, rfl, (hq.coherent.sound hqid).valid.grows, rfl, ?_⟩
      intro c hc hfits
      refine ⟨hfits.args, ?_⟩
      intro w e he
      rw [lookup_cons] at he
      split at he
      · rename_i hkey
        cases he
        have hkey' : c.key = t.key := (Prod.ext_iff.1 (eq_of_beq hkey)).1
        rw [hkey', hq.macros, ht, Option.some.injEq] at hc
        exact Nat.le_of_eq (by rw [hlen, hc])
      · exact hfits.params he
    refine .modify_bind hadvance (.pure (hnote.coherent.advances hqid) ⟨hq.tapeAt, ?_⟩)
    exact fun _ => Nat.le_of_eq hlen.symm

/-! ## Macro calls -/

section Calls

variable (hp : p.Coherent) (hid : id < p.tapes.size)

include hp hid

theorem advances_tree (tree : RequirementTree) :
    Advances id touched p { p with tree } :=
  Leaves.advances ⟨hp.beside rfl, rfl, rfl, rfl⟩ hp hid

theorem advances_note (h : Tape.SameCode (p.tapeAt id) (f (p.tapeAt id))) :
    Advances id touched p (p.modifyTape id f) := by
  refine .edit hp hid (.note h) (by rw [h.blocks]) ?_ h.state ?_
  · intro i _
    rw [Tape.block, h.blocks, Tape.block]
  · rw [h.regs]
    exact (hp.sound hid).valid.grows

variable (hstate : (p.tapeAt id).TakesRegisters)

include hstate

theorem advances_registers (hg : Grows (p.tapeAt id).regs g) :
    Advances id touched p (p.modifyTape id ({ · with regs := g })) :=
  .edit hp hid (.registers hstate ⟨hg.ext.keeps, hg.valid⟩) rfl (fun _ _ => rfl) rfl
    hg

theorem meets_onOwn {α : Type} {act : RegisterM α} {Q : α → RegisterFile → Prop}
    (h : Meets Grows act (p.tapeAt id).regs Q) :
    Meets (Advances id touched) (onRegisters id act) p fun a q => Q a (q.tapeAt id).regs := by
  refine (meets_onRegisters h fun g => advances_registers hp hid hstate).mono ?_
  rintro a q - ⟨g, -, hQ, rfl⟩
  rw [tapeAt_modifyTape_self hid]
  exact hQ

theorem meets_batchedCall
    (hargs : ∀ r ∈ (Op.call c).registers, (p.tapeAt id).regs.owns r)
    (hc : p.macros.lookup c.key = some c.template) (node : NodeId) :
    Meets (Advances id touched) (batchedCall id node c) p fun code q =>
      Replaces (c.Fits p) (p.tapeAt id).regs (q.tapeAt id).regs c code := by
  refine .get_bind ?_
  simp only []
  split
  · exact .throw_bind (hp.advances hid)
  refine .bind (meets_batchTape hp hid hc c.totalWidth) ?_
  rintro ⟨callee, params⟩ q₁ hq₁ ⟨htape, hparams⟩
  rw [← htape] at hargs ⊢
  have hid₁ := hq₁.lt hid
  have hcode := meets_batchInstructions (hq₁.coherent.sound hid₁).valid hargs
    c.totalWidth callee params
  refine .bind (meets_onOwn hq₁.coherent hid₁ (hq₁.takesRegisters hstate) hcode) ?_
  rintro code q₂ hq₂ hreplaces
  have hid₂ := hq₂.lt hid₁
  refine .get_bind (.bind (Q := fun _ q => q.tapeAt id = q₂.tapeAt id) ?_ ?_)
  · exact .of_run_ok (run_discard_ok (run_onTree _ q₂))
      (advances_tree hq₂.coherent hid₂ _) rfl
  · intro _ q₃ hq₃ htape₃
    have hid₃ := hq₃.lt hid₂
    have hnote : Advances id touched q₃
        (q₃.modifyTape id fun t => { t with callees := t.callees ++ [callee] }) :=
      advances_note hq₃.coherent hid₃ (.of_eq rfl)
    refine .modify_bind hnote (.pure (hnote.coherent.advances (hnote.lt hid₃)) ?_)
    rw [tapeAt_modifyTape_self hid₃, htape₃]
    exact hreplaces.of_imp fun hfits => ⟨fun _ => hfits.args, hparams fun _ => hfits.params⟩

end Calls

theorem meets_inlineSites (fits : Prop) (ht : t.Parametric) (node : NodeId) (sites : List CallSite)
    (hp : p.Coherent) (hid : id < p.tapes.size) (hstate : (p.tapeAt id).TakesRegisters)
    (hargs : ∀ site ∈ sites, ∀ arg ∈ site.args, (p.tapeAt id).regs.owns arg) :
    Meets (Advances id touched) (sites.mapM fun site => do
        onTree fun tree => ((), tree.addUsage node (t.extra.scale (.finite site.width)))
        onRegisters id (t.expand site.args site.width)) p fun codes q =>
      Replaces fits (p.tapeAt id).regs (q.tapeAt id).regs ⟨t, sites⟩ codes.flatten := by
  induction sites generalizing p with
  | nil => exact .pure (hp.advances hid) (.nil _ t)
  | cons site sites ih =>
    rw [mapM_cons]
    refine .bind (Q := fun code q => Template.SiteCode t (p.tapeAt id).regs (q.tapeAt id).regs
      site.args code) ?_ ?_
    · refine .bind (Q := fun _ q => q.tapeAt id = p.tapeAt id)
        (.of_run_ok (run_onTree _ p) (advances_tree hp hid _) rfl) ?_
      intro _ q hq htape
      rw [← htape] at hargs ⊢
      have hid' := hq.lt hid
      exact meets_onOwn hq.coherent hid' (hq.takesRegisters hstate)
        (t.meets_expand (hq.coherent.sound hid').valid ht.nodup
          (hargs site (.head _)) site.width)
    · intro code q hq hcode
      refine .bind (ih hq.coherent (hq.lt hid) (hq.takesRegisters hstate) ?_) ?_
      · intro s hs arg harg
        exact hq.regs.ext.owns (hargs s (.tail _ hs) arg harg)
      · intro codes q' hq' hcodes
        refine .pure (hq'.coherent.advances (hq'.lt (hq.lt hid))) ?_
        rw [flatten_cons]
        exact .cons (hp.sound hid).valid hq.regs hq'.regs ht hargs hcode hcodes

theorem meets_inlineCall (fits : Prop) (hp : p.Coherent) (hid : id < p.tapes.size)
    (hstate : (p.tapeAt id).TakesRegisters) (ht : c.template.Parametric)
    (hargs : ∀ r ∈ (Op.call c).registers, (p.tapeAt id).regs.owns r) (node : NodeId) :
    Meets (Advances id touched) (inlineCall id node c) p fun code q =>
      Replaces fits (p.tapeAt id).regs (q.tapeAt id).regs c code := by
  have hsites (site : CallSite) (hsite : site ∈ c.sites) (arg : Reg) (harg : arg ∈ site.args) :=
    hargs arg (mem_flatMap.2 ⟨site, hsite, harg⟩)
  refine .bind (meets_inlineSites fits ht node c.sites hp hid hstate hsites) ?_
  intro codes q hq hcodes
  exact .pure (hq.coherent.advances (hq.lt hid)) hcodes

/-- The code `code` on the registers of `g` stands for the operations `ops` on those of `f`: it
reads from outside what the operations read, and writes what they write among the wanted slots. -/
structure StandsFor (fits : Prop) (wanted : Nat → Prop) (f g : RegisterFile)
    (ops code : List Op) : Prop where
  owned : ∀ op ∈ code, op.Owned g
  calls : ∀ c, .call c ∈ code → ∃ d, .call d ∈ ops ∧ d.template = c.template
  keys : fits → ∀ op ∈ code, ∀ r ∈ op.registers,
    f.size ≤ g.slotKey r ∨ ∃ o ∈ ops, ∃ q ∈ o.registers, g.slotKey r = f.slotKey q
  reads : fits → (∀ c, .call c ∈ ops → c.template.Honest) → ∀ {key}, key < f.size →
    Exposes g.slotKey key code → Exposes f.slotKey key ops
  writes : fits → (∀ c, .call c ∈ ops → c.template.Honest) → ∀ {op key}, wanted key → op ∈ ops →
    op.Writes f.slotKey key → ∃ o ∈ code, o.Writes g.slotKey key

namespace StandsFor

variable {fits fits₁ fits₂ : Prop} {wanted : Nat → Prop} {f g h : RegisterFile}
  {ops code code' : List Op}

theorem trans (h₁ : StandsFor fits wanted f g ops code) (hg : Grows f g)
    (h₂ : StandsFor fits wanted g h code code') : StandsFor fits wanted f h ops code' := by
  have hhonest (hops : ∀ c, .call c ∈ ops → c.template.Honest) (c : MacroCall)
      (hc : .call c ∈ code) : c.template.Honest := by
    obtain ⟨d, hd, heq⟩ := h₁.calls c hc
    rw [← heq]
    exact hops d hd
  refine ⟨h₂.owned, ?_, ?_, ?_, ?_⟩
  · intro c hc
    obtain ⟨d, hd, heq⟩ := h₂.calls c hc
    obtain ⟨e, he, heq'⟩ := h₁.calls d hd
    exact ⟨e, he, heq'.trans heq⟩
  · intro hfits op hop r hr
    rcases h₂.keys hfits op hop r hr with hnew | ⟨o, ho, q, hq, hkey⟩
    · exact .inl (Nat.le_trans hg.ext.size_le hnew)
    · rw [hkey]
      exact h₁.keys hfits o ho q hq
  · intro hfits hops key hlt hexp
    have hlt' := Nat.lt_of_lt_of_le hlt hg.ext.size_le
    exact h₁.reads hfits hops hlt (h₂.reads hfits (hhonest hops) hlt' hexp)
  · intro hfits hops op key hkey hop hw
    obtain ⟨o, ho, hw'⟩ := h₁.writes hfits hops hkey hop hw
    exact h₂.writes hfits (hhonest hops) hkey ho hw'

theorem of_imp (h : StandsFor fits₁ wanted f g ops code) (himp : fits → fits₁) :
    StandsFor fits wanted f g ops code :=
  ⟨h.owned, h.calls, fun hfits => h.keys (himp hfits), fun hfits => h.reads (himp hfits),
    fun hfits => h.writes (himp hfits)⟩

theorem optimize {options : MergeOptions} {liveOut : List Nat} (hops : ∀ op ∈ ops, op.Owned f)
    (ht : SameTemplates ops) :
    StandsFor fits (· ∈ liveOut) f f ops (optimize f options liveOut ops).1 := by
  have hlayout (op : Op) (hop : op ∈ ops) := (hops op hop).layout
  refine ⟨?_, ?_, ?_, ?_, ?_⟩
  · intro m hm
    obtain ⟨part, -, hsub, hgathers⟩ := exists_gathers_of_mem_optimize hlayout ht hm
    refine ⟨hgathers.layout, ?_, ?_⟩
    · intro r hr
      obtain ⟨op, hop, hr⟩ := hgathers.registers hr
      exact (hops op (hsub hop)).owns r hr
    · exact hgathers.typed fun i hi => (hops _ (hsub hi)).typed i rfl
  · intro c hc
    obtain ⟨part, -, hsub, hgathers⟩ := exists_gathers_of_mem_optimize hlayout ht hc
    obtain ⟨d, hd, heq⟩ := hgathers.template rfl
    exact ⟨d, hsub hd, heq⟩
  · intro _ m hm r hr
    obtain ⟨part, -, hsub, hgathers⟩ := exists_gathers_of_mem_optimize hlayout ht hm
    obtain ⟨op, hop, hr⟩ := hgathers.registers hr
    exact .inr ⟨op, hsub hop, r, hr, rfl⟩
  · intro _ _ key _ hexp
    exact exposes_of_exposes_optimize hlayout ht hexp
  · intro _ _ op key hkey hop hw
    exact exists_writes_optimize hlayout ht hkey hop hw

theorem nil (f : RegisterFile) : StandsFor fits wanted f f [] [] where
  owned := nofun
  calls := nofun
  keys := nofun
  reads _ _ _ _ h := h
  writes := nofun

theorem inst (hf : f.Valid) (hg : Grows f g) {i : Instruction} (hi : (Op.inst i).Owned f)
    (hrest : StandsFor fits₁ wanted f g ops code) (himp : fits → fits₁) :
    StandsFor fits wanted f g (.inst i :: ops) (.inst i :: code) := by
  have hkey {r : Reg} (hr : r ∈ (Op.inst i).registers) : g.slotKey r = f.slotKey r :=
    hg.ext.slotKey hf (owns_iff.1 (hi.owns r hr)).2
  refine ⟨?_, ?_, ?_, ?_, ?_⟩
  · intro op hop
    rcases mem_cons.1 hop with rfl | hop
    · exact hi.keeps hg.ext.keeps
    · exact hrest.owned op hop
  · intro c hc
    rcases mem_cons.1 hc with hc | hc
    · cases hc
    · obtain ⟨d, hd, heq⟩ := hrest.calls c hc
      exact ⟨d, .tail _ hd, heq⟩
  · intro hfits op hop r hr
    rcases mem_cons.1 hop with rfl | hop
    · exact .inr ⟨_, .head _, r, hr, hkey hr⟩
    · rcases hrest.keys (himp hfits) op hop r hr with hnew | ⟨o, ho, q, hq, heq⟩
      · exact .inl hnew
      · exact .inr ⟨o, .tail _ ho, q, hq, heq⟩
  · rintro hfits hhonest key hlt (⟨r, hr, hk⟩ | ⟨hnot, hexp⟩)
    · exact .inl ⟨r, hr, (hkey (Op.mem_registers_of_mem_reads hr)).symm.trans hk⟩
    · refine .inr ⟨?_, hrest.reads (himp hfits) (fun c hc => hhonest c (.tail _ hc))
        hlt hexp⟩
      rintro ⟨r, hr, hk⟩
      exact hnot ⟨r, hr, (hkey (Op.mem_registers_of_mem_writes hr)).trans hk⟩
  · intro hfits hhonest op key hwanted hop hw
    rcases mem_cons.1 hop with rfl | hop
    · obtain ⟨r, hr, hk⟩ := hw
      exact ⟨_, .head _, r, hr, (hkey (Op.mem_registers_of_mem_writes hr)).trans hk⟩
    · obtain ⟨o, ho, hw⟩ := hrest.writes (himp hfits)
        (fun c hc => hhonest c (.tail _ hc)) hwanted hop hw
      exact ⟨o, .tail _ ho, hw⟩

theorem call (hf : f.Valid) (hfg : Grows f g) (hgh : Grows g h) {is : List Instruction}
    (hops : ∀ op ∈ ops, op.Owned f) (hcode : Replaces fits₁ f g c is)
    (hrest : StandsFor fits₂ wanted g h ops code) (himp : fits → fits₁ ∧ fits₂) :
    StandsFor fits wanted f h (.call c :: ops) (is.map .inst ++ code) := by
  have hkey {i : Instruction} {r : Reg} (hi : i ∈ is) (hr : r ∈ (Op.inst i).registers) :
      g.owns r = true ∧ h.slotKey r = g.slotKey r := by
    obtain ⟨⟨r, a⟩, ha, rfl⟩ := mem_map.1 hr
    have howns := hcode.owned hi ha
    exact ⟨howns, hgh.ext.slotKey hfg.valid (owns_iff.1 howns).2⟩
  have hold {op : Op} {r : Reg} (hop : op ∈ ops) (hr : r ∈ op.registers) :
      g.slotKey r = f.slotKey r :=
    hfg.ext.slotKey hf (owns_iff.1 ((hops op hop).owns r hr)).2
  have htail {P : MacroCall → Prop} (hall : ∀ d, .call d ∈ Op.call c :: ops → P d) (d : MacroCall)
      (hd : .call d ∈ ops) : P d := hall d (.tail _ hd)
  refine ⟨?_, ?_, ?_, ?_, ?_⟩
  · intro op hop
    rcases mem_append.1 hop with hop | hop
    · obtain ⟨i, hi, rfl⟩ := mem_map.1 hop
      exact ((hcode.typed hi).keeps hgh.ext.keeps).owned
    · exact hrest.owned op hop
  · intro d hd
    rcases mem_append.1 hd with hd | hd
    · obtain ⟨i, -, hi⟩ := mem_map.1 hd
      cases hi
    · obtain ⟨e, he, heq⟩ := hrest.calls d hd
      exact ⟨e, .tail _ he, heq⟩
  · intro hfits op hop r hr
    rcases mem_append.1 hop with hop | hop
    · obtain ⟨i, hi, rfl⟩ := mem_map.1 hop
      rw [(hkey hi hr).2]
      obtain ⟨⟨r, a⟩, ha, rfl⟩ := mem_map.1 hr
      rcases hcode.keys (himp hfits).1 hi ha with hnew | ⟨q, hq, heq⟩
      · exact .inl hnew
      · exact .inr ⟨_, .head _, q, hq, heq⟩
    · rcases hrest.keys (himp hfits).2 op hop r hr with hnew | ⟨o, ho, q, hq, heq⟩
      · exact .inl (Nat.le_trans hfg.ext.size_le hnew)
      · exact .inr ⟨o, .tail _ ho, q, hq, heq.trans (hold ho hq)⟩
  · intro hfits hhonest key hlt hexp
    have hc := hhonest c (.head _)
    rcases exposes_append.1 hexp with hexp | ⟨hnot, hexp⟩
    · rw [Exposes.congr (f := g)] at hexp
      · exact .inl (hcode.reads (himp hfits).1 hc hlt hexp)
      · intro op hop r hr
        obtain ⟨i, hi, rfl⟩ := mem_map.1 hop
        exact (hkey hi hr).2
    · refine .inr ⟨?_, ?_⟩
      · intro hw
        obtain ⟨i, hi, hw⟩ := hcode.writes (himp hfits).1 hc hw
        exact hnot _ (mem_map_of_mem hi) (hw.grows hfg.valid hgh (hcode.owned hi))
      · have hlt' := Nat.lt_of_lt_of_le hlt hfg.ext.size_le
        have hrest' := hrest.reads (himp hfits).2 (htail hhonest) hlt' hexp
        rwa [Exposes.congr fun op hop r hr => hold hop hr] at hrest'
  · intro hfits hhonest op key hwanted hop hw
    rcases mem_cons.1 hop with rfl | hop
    · obtain ⟨i, hi, hw⟩ := hcode.writes (himp hfits).1 (hhonest c (.head _)) hw
      exact ⟨_, mem_append_left _ (mem_map_of_mem hi),
        hw.grows hfg.valid hgh (hcode.owned hi)⟩
    · obtain ⟨r, hr, hk⟩ := hw
      obtain ⟨o, ho, hw⟩ := hrest.writes (himp hfits).2 (htail hhonest) hwanted hop
        ⟨r, hr, (hold hop (Op.mem_registers_of_mem_writes hr)).trans hk⟩
      exact ⟨o, mem_append_right _ ho, hw⟩

end StandsFor

/-- The macro calls among operations of a block are replaced by code that stands for them. -/
theorem meets_expandCalls (wanted : Nat → Prop) (node : NodeId) (ops : List Op) (hp : p.Coherent)
    (hid : id < p.tapes.size) (hstate : (p.tapeAt id).TakesRegisters)
    (hops : ∀ op ∈ ops, op.Owned (p.tapeAt id).regs)
    (hcached : ∀ c, .call c ∈ ops → p.macros.lookup c.key = some c.template) :
    Meets (Advances id touched) (expandCalls id node ops) p fun code q =>
      StandsFor (∀ c, .call c ∈ ops → c.Fits p) wanted (p.tapeAt id).regs (q.tapeAt id).regs
        ops code ∧ ∀ op ∈ code, op.inst?.isSome = true := by
  induction ops generalizing p with
  | nil => exact .pure (hp.advances hid) ⟨.nil _, nofun⟩
  | cons op ops ih =>
    have hops' (o : Op) (ho : o ∈ ops) := hops o (.tail _ ho)
    have hcached' (c : MacroCall) (hc : .call c ∈ ops) := hcached c (.tail _ hc)
    cases op with
    | inst i =>
      refine .bind (ih hp hid hstate hops' hcached') ?_
      rintro code q hq ⟨hcode, hinst⟩
      refine .pure (hq.coherent.advances (hq.lt hid)) ⟨?_, ?_⟩
      · exact .inst (hp.sound hid).valid hq.regs (hops _ (.head _)) hcode
          fun hfits c hc => hfits c (.tail _ hc)
      · exact forall_mem_cons.2 ⟨rfl, hinst⟩
    | call c =>
      have hc := hcached c (.head _)
      have hargs := (hops _ (.head _)).owns
      have hrest {is : List Instruction} {q : Program} (hq : Advances id touched p q)
          (his : Replaces (c.Fits p) (p.tapeAt id).regs (q.tapeAt id).regs c is) :
          Meets (Advances id touched) (do return is.map .inst ++ (← expandCalls id node ops)) q
            fun code q' => StandsFor (∀ d, .call d ∈ Op.call c :: ops → d.Fits p) wanted
              (p.tapeAt id).regs (q'.tapeAt id).regs (.call c :: ops) code ∧
                ∀ op ∈ code, op.inst?.isSome = true := by
        refine .bind (ih hq.coherent (hq.lt hid) (hq.takesRegisters hstate) ?_ ?_) ?_
        · exact fun o ho => (hops' o ho).keeps hq.regs.ext.keeps
        · rw [hq.macros]
          exact hcached'
        · rintro code q' hq' ⟨hcode, hinst⟩
          refine .pure (hq'.coherent.advances (hq'.lt (hq.lt hid))) ⟨?_, ?_⟩
          · refine .call (hp.sound hid).valid hq.regs hq'.regs hops' his hcode ?_
            intro hfits
            refine ⟨hfits c (.head _), ?_⟩
            exact fun d hd => hq.fits (hcached' d hd) (hfits d (.tail _ hd))
          · refine forall_mem_append.2 ⟨?_, hinst⟩
            exact forall_mem_map.2 fun _ _ => rfl
      refine .get_bind ?_
      simp only []
      split
      · exact .bind (meets_batchedCall hp hid hstate hargs hc node) fun _ _ => hrest
      · exact .bind (meets_inlineCall _ hp hid hstate (hp.parametric hc) hargs node)
          fun _ _ => hrest

end BuildM

end SecureTape
