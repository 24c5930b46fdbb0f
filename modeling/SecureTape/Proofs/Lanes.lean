import Mathlib.Data.List.Forall2
import SecureTape.Proofs.Expansion
import SecureTape.Proofs.Lifetimes
import SecureTape.Proofs.Reachable

/-!
# Lanes

At a call site of width `w`, element `j` of a register of the template becomes the elements
`j * w + l` of its image, one for each lane `l`. Main statements:
1. `Template.serves_expandFrom`: unless registers run out, every instruction gets its image.
2. `Template.Agrees.run`: the images do in each lane what the instructions of the template do.
3. `Template.expand_runs_lanes`: so a call site runs the template once per lane, if no registers are
   linked (`Template.expand_loses_links`).
A batch is meant to do the same, but it may call another tape (`BuildM.batch_calls_other_tape`).
-/

namespace SecureTape

open Action RegisterFile List Instruction

variable {V : Type}

/-! ## Element-wise instructions -/

/-- What opcodes compute for one element of the registers they write: from the operands that are not
registers, the values read, and the place of the register among those written. -/
abbrev Elementwise (V : Type) :=
  Opcode → FieldDomain → List (Option Operand) → List (Option V) → Nat → V

namespace RegisterFile

/-- The place of element `k` of a register: a slot, which linked registers share, and an element of
it. -/
def elementOf (f : RegisterFile) (r : Reg) (k : Nat) : Nat × Nat :=
  (f.slotKey r, (f.resolve r).2 + k)

/-- The place is that of an element of the register. -/
def HasPlace (f : RegisterFile) (r : Reg) (e : Nat × Nat) : Prop :=
  f.slotKey r = e.1 ∧ (f.resolve r).2 ≤ e.2 ∧ e.2 < (f.resolve r).2 + f.sizeOf r

instance (f : RegisterFile) (r : Reg) (e : Nat × Nat) : Decidable (f.HasPlace r e) :=
  inferInstanceAs (Decidable (_ ∧ _))

theorem Extends.hasPlace_iff {f g : RegisterFile} {r : Reg} (h : Extends f g) (hf : f.Valid)
    (hr : r.id < f.size) (e : Nat × Nat) : g.HasPlace r e ↔ f.HasPlace r e := by
  rw [HasPlace, HasPlace, h.slotKey hf hr, h.resolve hr, h.sizeOf hr]

/-- No registers are linked. -/
def Unlinked (f : RegisterFile) : Prop := ∀ id, (f.data id).aliasSet = none

theorem Unlinked.slotKey {f : RegisterFile} (h : f.Unlinked) (r : Reg) :
    f.slotKey r = f.baseOf r := by
  rw [RegisterFile.slotKey, h]

end RegisterFile

/-- Write values to registers with numbers, one after the other. -/
def RegisterFile.store (f : RegisterFile) (value : Nat → Nat → V) (ws : List (Reg × Nat))
    (s : Nat × Nat → V) : Nat × Nat → V :=
  ws.foldl (fun s w e =>
    if f.HasPlace w.1 e then value w.2 (e.2 - (f.resolve w.1).2) else s e) s

namespace Instruction

/-- The value for element `k` of the register written in place `n`. A register that has no such
element gives nothing. -/
def valueAt (F : Elementwise V) (f : RegisterFile) (i : Instruction) (s : Nat × Nat → V)
    (n k : Nat) : V :=
  F i.opcode i.domain (i.operands.map fun o => if o.reg?.isSome then none else some o)
    (i.reads.map fun r => if k < f.sizeOf r then some (s (f.elementOf r k)) else none) n

/-- The state after an instruction, which reads before it writes. -/
def exec (F : Elementwise V) (f : RegisterFile) (s : Nat × Nat → V) (i : Instruction) :
    Nat × Nat → V :=
  f.store (i.valueAt F f s) i.writes.zipIdx s

end Instruction

/-! ## Actions that succeed unless registers run out -/

/-- The action gives a result with the property, unless registers run out. -/
def Serves {α : Type} (act : RegisterM α) (f : RegisterFile) (Q : α → RegisterFile → Prop) : Prop :=
  (∃ a g, act.run f = (.ok a, g) ∧ Q a g) ∨
    ∃ cls n, (act.run f).1 = .error (.exhausted .registers cls n maxVirtual)

namespace Serves

variable {α β : Type} {act : RegisterM α} {k : α → RegisterM β} {f : RegisterFile}
  {Q : α → RegisterFile → Prop} {P : β → RegisterFile → Prop}

theorem pure {a : α} (h : Q a f) : Serves (Pure.pure a) f Q := .inl ⟨a, f, rfl, h⟩

theorem mono {Q' : α → RegisterFile → Prop} (h : Serves act f Q) (hQ : ∀ a g, Q a g → Q' a g) :
    Serves act f Q' :=
  h.imp_left fun ⟨a, g, hrun, ha⟩ => ⟨a, g, hrun, hQ a g ha⟩

theorem pure_bind {a : α} (h : Serves (k a) f P) : Serves (Pure.pure a >>= k) f P := h

theorem bind (h : Serves act f Q) (hk : ∀ a g, Q a g → Serves (k a) g P) :
    Serves (act >>= k) f P := by
  rcases h with ⟨a, g, hrun, ha⟩ | ⟨cls, n, h⟩
  · rcases hk a g ha with ⟨b, h, hrun', hb⟩ | ⟨cls, n, h⟩
    · exact .inl ⟨b, h, by rw [run_bind_ok hrun, hrun'], hb⟩
    · exact .inr ⟨cls, n, by rw [run_bind_ok hrun, h]⟩
  · exact .inr ⟨cls, n, by rw [run_bind_error (Prod.ext h rfl)]⟩

end Serves

theorem serves_create {f : RegisterFile} (hf : f.Valid) (cls : RegisterClass) (size : Nat) :
    Serves (RegisterM.create cls size) f fun r g => Extends f g ∧ g.Valid ∧ r = f.handle f.size ∧
      g.size = f.size + 1 ∧ ∃ index, g.data f.size = { cls, size, index } := by
  cases h : f.create cls size with
  | error e =>
    obtain ⟨n, rfl⟩ : ∃ n, e = .exhausted .registers cls n maxVirtual := by
      simp only [create] at h
      split at h <;> cases h
      exact ⟨_, rfl⟩
    refine .inr ⟨cls, n, ?_⟩
    rw [RegisterM.create, run_bind_ok (run_get f), h]
    rfl
  | ok result =>
    obtain ⟨hext, hsize, hr, hvalid, hdata⟩ := of_create_eq_ok h
    refine .inl ⟨_, _, ?_, hext, hvalid hf, hr, hsize, hdata⟩
    rw [RegisterM.create, run_bind_ok (run_get f), h]
    rfl

theorem serves_viewOf {f : RegisterFile} (hf : f.Valid) {r : Reg} (hr : f.owns r)
    {start size : Nat} (hsize : 0 < size) (hfits : start + size ≤ f.sizeOf r) :
    Serves (RegisterM.viewOf r start size) f fun v g => Extends f g ∧ g.Valid ∧ g.owns v ∧
      g.baseOf v = f.baseOf r ∧ g.sizeOf v = size ∧ (g.resolve v).2 = (f.resolve r).2 + start := by
  obtain ⟨v, g, h⟩ : ∃ v g, f.viewOf r start size = .ok (v, g) := by
    simp only [viewOf]
    rw [if_neg hsize.ne', if_neg (not_lt.2 hfits)]
    split
    · exact ⟨_, _, rfl⟩
    · exact ⟨_, _, rfl⟩
  obtain ⟨hext, hvalid, hv, hbase, hsize, hoffset, -⟩ := of_viewOf_eq_ok hf hr h
  refine .inl ⟨v, g, ?_, hext, hvalid, hv, hbase, hsize, hoffset⟩
  rw [RegisterM.viewOf, run_bind_ok (run_get f), h]
  rfl

/-! ## Images -/

namespace Template

variable {t : Template} {w n : Nat} {start map map' : Renaming} {z : V} {f g : RegisterFile}
  {s : Nat × Nat → V} {lanes : Nat → Nat × Nat → V} {r r' : Reg}

/-- The template writes a part of the base register. -/
def Writes (t : Template) (base : Nat) : Prop :=
  ∃ i ∈ t.instructions, ∃ r ∈ i.writes, t.regs.baseOf r = base

/-- The register `r'` has, for each lane, the elements that `r` has in the template. -/
structure LaneImage (t : Template) (w : Nat) (map : Renaming) (f : RegisterFile)
    (r r' : Reg) : Prop where
  source : t.regs.owns r
  owns : f.owns r'
  cls : f.classOf r' = t.regs.classOf r
  size : f.sizeOf r' = t.regs.sizeOf r * w
  place : ∃ image, map.lookup (t.regs.baseOf r) = some image ∧ f.owns image ∧
    f.baseOf r' = f.baseOf image ∧
    (f.resolve r').2 = (f.resolve image).2 + (t.regs.resolve r).2 * w

/-- The file `g` has the registers of `f`, and `map'` the images of `map`. -/
structure Widens (f : RegisterFile) (map : Renaming) (g : RegisterFile)
    (map' : Renaming) : Prop where
  ext : Extends f g
  old : ∀ {b r}, map.lookup b = some r → map'.lookup b = some r

theorem Widens.trans {h : RegisterFile} {map'' : Renaming} (hfg : Widens f map g map')
    (hgh : Widens g map' h map'') : Widens f map h map'' :=
  ⟨hfg.ext.trans hgh.ext, fun hl => hgh.old (hfg.old hl)⟩

theorem Widens.isSome (h : Widens f map g map') {b : Nat} (hb : (map.lookup b).isSome) :
    (map'.lookup b).isSome := by
  obtain ⟨r, hr⟩ := Option.isSome_iff_exists.mp hb
  exact Option.isSome_iff_exists.mpr ⟨r, h.old hr⟩

theorem LaneImage.mono (h : LaneImage t w map f r r') (hw : Widens f map g map') :
    LaneImage t w map' g r r' := by
  obtain ⟨image, hl, himage, hbase, hoffset⟩ := h.place
  have hr := (owns_iff.mp h.owns).2
  have hi := (owns_iff.mp himage).2
  refine ⟨h.source, hw.ext.owns h.owns, ?_, ?_, image, hw.old hl, hw.ext.owns himage, ?_, ?_⟩
  · rw [classOf, hw.ext.data _ hr]
    exact h.cls
  · rw [hw.ext.sizeOf hr, h.size]
  · rw [hw.ext.baseOf hr, hw.ext.baseOf hi, hbase]
  · rw [hw.ext.resolve hr, hw.ext.resolve hi, hoffset]

/-- The images of a renaming are as wide as they should be, and apart from each other if one of them
is written. Those that are not in `start` are new from `n` on. -/
structure Lanes (t : Template) (w n : Nat) (start : Renaming) (f : RegisterFile)
    (map : Renaming) : Prop where
  valid : f.Valid
  size_le : n ≤ f.size
  image : ∀ {b r}, map.lookup b = some r → f.owns r ∧ f.classOf r = (t.regs.data b).cls ∧
    f.sizeOf r = (t.regs.data b).size * w
  new : ∀ {b r}, map.lookup b = some r → start.lookup b = some r ∨ n ≤ f.slotKey r
  apart : ∀ {b c r q}, map.lookup b = some r → map.lookup c = some q → b ≠ c → t.Writes b →
    ∀ e, f.HasPlace r e → ¬ f.HasPlace q e

namespace Lanes

theorem id_lt (h : Lanes t w n start f map) {b : Nat} (hl : map.lookup b = some r) :
    r.id < f.size :=
  (owns_iff.mp (h.image hl).1).2

theorem extend (h : Lanes t w n start f map) (hext : Extends f g) (hg : g.Valid) :
    Lanes t w n start g map where
  valid := hg
  size_le := le_trans h.size_le hext.size_le
  image hl := by
    obtain ⟨howns, hcls, hsize⟩ := h.image hl
    exact ⟨hext.owns howns, by rwa [classOf, hext.data _ (h.id_lt hl)],
      by rwa [hext.sizeOf (h.id_lt hl)]⟩
  new hl := by
    rw [hext.slotKey h.valid (h.id_lt hl)]
    exact h.new hl
  apart hl hl' hne hw e := by
    rw [hext.hasPlace_iff h.valid (h.id_lt hl), hext.hasPlace_iff h.valid (h.id_lt hl')]
    exact h.apart hl hl' hne hw e

theorem fresh (h : Lanes t w n start f map) (hext : Extends f g) (hg : g.Valid)
    (hsize : g.size = f.size + 1) {b index : Nat} (hdata : g.data f.size =
      { cls := (t.regs.data b).cls, size := (t.regs.data b).size * w, index }) :
    Lanes t w n start g ((b, f.handle f.size) :: map) := by
  have hold := h.extend hext hg
  have hnew : g.slotKey (f.handle f.size) = f.size := by
    simp [slotKey, baseOf, resolve, handle, hdata]
  have hslot {c : Nat} {q : Reg} (hl : map.lookup c = some q) : g.slotKey q < f.size := by
    rw [hext.slotKey h.valid (h.id_lt hl)]
    exact h.valid.keyOf_lt (h.valid.baseOf_lt (h.id_lt hl))
  have hcases {c : Nat} {q : Reg} (hl : ((b, f.handle f.size) :: map).lookup c = some q) :
      (c = b ∧ q = f.handle f.size) ∨ map.lookup c = some q := by
    rw [lookup_cons] at hl
    split at hl
    · rename_i hc
      exact .inl ⟨eq_of_beq hc, (Option.some.inj hl).symm⟩
    · exact .inr hl
  refine ⟨hg, hold.size_le, fun hl => ?_, fun hl => ?_, ?_⟩
  · rcases hcases hl with ⟨rfl, rfl⟩ | hl
    · exact ⟨owns_iff.mpr
        ⟨hext.tape.symm, by simp [hsize, handle]⟩, by simp [classOf, handle, hdata],
        by simp [RegisterFile.sizeOf, handle, hdata]⟩
    · exact hold.image hl
  · rcases hcases hl with ⟨rfl, rfl⟩ | hl
    · exact .inr (by rw [hnew]; exact h.size_le)
    · exact hold.new hl
  · intro c d q q' hl hl' hne hw e hq hq'
    have heq := hq.1.trans hq'.1.symm
    rcases hcases hl with ⟨rfl, rfl⟩ | hc <;> rcases hcases hl' with ⟨rfl, rfl⟩ | hd
    · exact hne rfl
    · exact (hslot hd).ne' (hnew ▸ heq)
    · exact (hslot hc).ne (heq.trans hnew)
    · exact hold.apart hc hd hne hw e hq hq'

end Lanes

/-! ## Renaming -/

/-- Once its base register has an image, a register is that image or a view of it. -/
theorem serves_image (ht : t.regs.Proper) (hpos : 0 < w)
    (h : Lanes t w n start f map) (hr : t.regs.owns r) {image : Reg}
    (hl : map.lookup (t.regs.baseOf r) = some image) :
    Serves (if (t.regs.data r.id).view.isNone then pure (image, map) else do
        let view ← RegisterM.viewOf image ((t.regs.resolve r).2 * w) (t.regs.sizeOf r * w)
        pure (view, map) : RegisterM (Reg × Renaming)) f fun result g =>
      Lanes t w n start g result.2 ∧ Widens f map g result.2 ∧
        LaneImage t w result.2 g r result.1 := by
  obtain ⟨howns, hcls, hsize⟩ := h.image hl
  have hid := (owns_iff.mp hr).2
  rw [ht.cls_baseOf hid] at hcls
  split
  · rename_i hview
    have hresolve : t.regs.resolve r = (r.id, 0) := by
      rw [resolve, Option.isNone_iff_eq_none.mp hview, Option.getD_none]
    refine .pure ⟨h, ⟨.refl f, id⟩, hr, howns, hcls, ?_, image, hl, howns, rfl, by simp [hresolve]⟩
    rw [hsize, baseOf, hresolve]
    rfl
  · rename_i hview
    obtain ⟨⟨b, offset⟩, hv⟩ : ∃ v, (t.regs.data r.id).view = some v :=
      Option.ne_none_iff_exists'.mp (by simpa using hview)
    have hfits : (t.regs.resolve r).2 * w + t.regs.sizeOf r * w ≤ f.sizeOf image := by
      rw [hsize, ← Nat.add_mul]
      exact Nat.mul_le_mul_right _ (ht.resolve_add_size_le hid)
    have hpos : 0 < t.regs.sizeOf r * w := Nat.mul_pos (ht.nonempty hid hv) hpos
    refine .bind (serves_viewOf h.valid howns hpos hfits) ?_
    rintro v g ⟨hext, hvalid, hv, hbase, hvsize, hoffset⟩
    have hi := h.id_lt hl
    refine .pure ⟨h.extend hext hvalid, ⟨hext, id⟩, hr, hv, ?_, hvsize, image, hl, hext.owns howns,
      ?_, ?_⟩
    · rw [← hvalid.cls_baseOf (owns_iff.mp hv).2, hbase, hext.data _ (h.valid.baseOf_lt hi),
        h.valid.cls_baseOf hi, hcls]
    · rw [hbase, hext.baseOf hi]
    · rw [hoffset, hext.resolve hi]

theorem serves_rename (ht : t.regs.Proper) (hpos : 0 < w)
    (h : Lanes t w n start f map) (hr : t.regs.owns r) {written : Bool}
    (hw : written = true ∨ (map.lookup (t.regs.baseOf r)).isSome) :
    Serves (t.rename r written w map) f fun result g =>
      Lanes t w n start g result.2 ∧ Widens f map g result.2 ∧
        LaneImage t w result.2 g r result.1 := by
  unfold rename
  simp only []
  split
  · rename_i image hl
    exact .pure_bind (serves_image ht hpos h hr hl)
  · rename_i hnone
    obtain rfl : written = true := hw.resolve_right fun hsome => by
      rw [show map.lookup (t.regs.baseOf r) = none from hnone] at hsome
      cases hsome
    rw [if_pos rfl]
    refine .bind (serves_create h.valid _ _) ?_
    rintro image g ⟨hext, hvalid, rfl, hsize, index, hdata⟩
    have hfresh := h.fresh hext hvalid hsize hdata
    refine .pure_bind ((serves_image ht hpos hfresh hr lookup_cons_self).mono ?_)
    rintro result k ⟨hk, hw, himage⟩
    refine ⟨hk, Widens.trans ⟨hext, fun {c q} hl => ?_⟩ hw, himage⟩
    rw [lookup_cons]
    split
    · rename_i hc
      rw [eq_of_beq hc, hnone] at hl
      cases hl
    · exact hl

/-- The operand of a call site for an operand of the template. -/
inductive OperandLane (t : Template) (w : Nat) (map : Renaming) (f : RegisterFile) :
    Operand → Operand → Prop
  | reg {r r' : Reg} (h : LaneImage t w map f r r') : OperandLane t w map f (.reg r) (.reg r')
  | other {o : Operand} (h : o.reg? = none) : OperandLane t w map f o o

theorem OperandLane.mono {o o' : Operand} (h : OperandLane t w map f o o')
    (hw : Widens f map g map') : OperandLane t w map' g o o' := by
  cases h with
  | reg h => exact .reg (h.mono hw)
  | other h => exact .other h

theorem serves_renameOperands (ht : t.regs.Proper) (hpos : 0 < w)
    (h : Lanes t w n start f map) {writes : List Reg} {operands : List Operand}
    (hops : ∀ r, .reg r ∈ operands → t.regs.owns r ∧
      (r ∈ writes ∨ (map.lookup (t.regs.baseOf r)).isSome)) :
    Serves (t.renameOperands writes w operands map) f fun result g =>
      Lanes t w n start g result.2 ∧ Widens f map g result.2 ∧
        Forall₂ (OperandLane t w result.2 g) operands result.1 := by
  induction operands generalizing f map with
  | nil => exact .pure ⟨h, ⟨.refl f, id⟩, .nil⟩
  | cons o operands ih =>
    have hother (ho : o.reg? = none) :
        Serves (t.renameOperands writes w operands map >>= fun rest =>
        pure (o :: rest.1, rest.2) : RegisterM (List Operand × Renaming)) f fun result g =>
          Lanes t w n start g result.2 ∧ Widens f map g result.2 ∧
            Forall₂ (OperandLane t w result.2 g) (o :: operands) result.1 := by
      refine .bind (ih h fun r hr => hops r (mem_cons_of_mem _ hr)) ?_
      rintro ⟨images, map₁⟩ g ⟨hg, hw, himages⟩
      exact .pure ⟨hg, hw, .cons (.other ho) himages⟩
    cases o with
    | reg r =>
      obtain ⟨hr, hw⟩ := hops r mem_cons_self
      refine .bind (serves_rename ht hpos h hr (by simpa using hw)) ?_
      rintro ⟨image, map₁⟩ g ⟨hg, hw, himage⟩
      refine .bind (ih hg fun r hr => ?_) ?_
      · obtain ⟨howns, hr⟩ := hops r (mem_cons_of_mem _ hr)
        exact ⟨howns, hr.imp_right hw.isSome⟩
      · rintro ⟨images, map₂⟩ k ⟨hk, hw', himages⟩
        exact .pure ⟨hk, hw.trans hw', .cons (.reg (himage.mono hw')) himages⟩
    | callee _ => exact hother rfl
    | number _ => exact hother rfl
    | text _ => exact hother rfl

/-! ## Instructions -/

theorem check_lane {opcode : Opcode} {size position : Nat} {format : OperandFormat}
    {o o' : Operand} (h : OperandLane t w map f o o')
    (hcheck : checkOperand opcode size t.regs position format o = .ok ()) :
    checkOperand opcode (size * w) f position format o' = .ok () := by
  cases h with
  | reg h =>
    cases operandTyped_of_check hcheck with
    | reg _ hcls hsize =>
      simp [checkOperand, checkOwner, h.owns, h.cls, h.size, hcls, hsize]
    | anyReg _ => simp [checkOperand, checkOwner, h.owns]
  | other h =>
    cases o with
    | reg _ => cases h
    | _ => cases format <;> exact hcheck

theorem make_lane {i : Instruction} {os : List Operand}
    (h : make i.opcode i.domain i.size i.operands t.regs = .ok i)
    (hvec : i.opcode.isVector) (hpos : 0 < w)
    (hfit : i.size * w ≤ Wire.maxVectorSize)
    (hos : Forall₂ (OperandLane t w map f) i.operands os) :
    make i.opcode i.domain (i.size * w) os f =
      .ok ⟨i.opcode, i.domain, i.size * w, os⟩ := by
  obtain ⟨hform, hsize, fs, hfs, hcheck, -⟩ := of_make_eq_ok h
  rw [if_pos hvec] at hcheck
  have hchecks {position : Nat} {fs : List OperandFormat} {xs ys : List Operand}
      (hxy : Forall₂ (OperandLane t w map f) xs ys)
      (h : checkOperands i.opcode i.size t.regs position fs xs = .ok ()) :
      checkOperands i.opcode (i.size * w) f position fs ys = .ok () := by
    induction hxy generalizing position fs with
    | nil => cases fs <;> rfl
    | cons hxy _ ih =>
      cases fs with
      | nil => rfl
      | cons format fs =>
        rw [checkOperands_cons] at h ⊢
        exact ⟨check_lane hxy h.1, ih h.2⟩
  have hmade := make_eq_ok hform
    ⟨(Nat.mul_pos (Nat.pos_of_ne_zero hsize.1) hpos).ne', hfit⟩ (hos.length_eq ▸ hfs)
    (by rw [if_pos hvec]; exact hchecks hos hcheck)
  rwa [if_pos hvec] at hmade

/-- An instruction for vectors of all widths that can be made with the template's registers. -/
def Vectorizable (t : Template) (i : Instruction) : Prop :=
  i.opcode.isVector ∧ Instruction.make i.opcode i.domain i.size i.operands t.regs = .ok i

theorem Vectorizable.ne_callTape {i : Instruction} (h : t.Vectorizable i) :
    i.opcode ≠ .callTape := by
  intro hop
  exact absurd (hop ▸ h.1) (by decide)

theorem Vectorizable.read_or_write {i : Instruction} (h : t.Vectorizable i)
    (hr : .reg r ∈ i.operands) : t.regs.owns r ∧ (r ∈ i.writes ∨ r ∈ i.reads) := by
  obtain ⟨k, hk⟩ := mem_iff_getElem?.mp hr
  obtain ⟨a, ha⟩ : ∃ a, (r, a) ∈ i.accesses := by
    rcases getElem?_of_forall₂ (typed_of_make h.2).operands k with
      ⟨-, hnone⟩ | ⟨format, o, hformat, ho, htyped⟩
    · cases hnone.symm.trans hk
    · cases ho.symm.trans hk
      obtain ⟨a, ha⟩ : ∃ a, format.access? = some a := by
        cases htyped <;> exact ⟨_, rfl⟩
      exact ⟨a, (mem_accesses_iff_of_ne h.ne_callTape).mpr
        ⟨format, mem_of_getElem? (getElem?_zip_eq_some.mpr ⟨hformat, hk⟩), ha⟩⟩
  refine ⟨owns_of_make h.2 ha, ?_⟩
  rw [mem_writes_iff, mem_reads_iff]
  cases a
  all_goals first
    | exact .inl ⟨_, ha, rfl⟩
    | exact .inr ⟨_, ha, rfl⟩

/-- The instruction `j` of a call site stands for the instruction `i`. -/
structure InstructionLane (t : Template) (w : Nat) (map : Renaming) (f : RegisterFile)
    (i j : Instruction) : Prop where
  opcode : j.opcode = i.opcode
  domain : j.domain = i.domain
  size : j.size = i.size * w
  operands : Forall₂ (OperandLane t w map f) i.operands j.operands

theorem InstructionLane.accesses {i j : Instruction} (h : InstructionLane t w map f i j)
    (hcall : i.opcode ≠ .callTape) :
    Forall₂ (fun a b => LaneImage t w map f a.1 b.1 ∧ a.2 = b.2) i.accesses j.accesses := by
  let access (p : OperandFormat × Operand) : Option (Reg × Access) :=
    p.2.reg?.bind fun r => p.1.access?.map (r, ·)
  have haccesses {k : Instruction} (hk : k.opcode = i.opcode) :
      k.accesses = (k.formats.zip k.operands).filterMap access := by
    refine (congrArg (filterMap id) (ext_getElem? fun n => ?_)).trans (filterMap_map (f := access))
    rw [getElem?_mapIdx, getElem?_map]
    cases (k.formats.zip k.operands)[n]? with
    | none => rfl
    | some p =>
      simp only [accessAt_eq_access? (hk ▸ hcall), Option.map_some, access]
      cases p.2 with
      | reg r => cases p.1.access? <;> rfl
      | _ => rfl
  have haccess {o o' : Operand} (format : OperandFormat) (ho : OperandLane t w map f o o') :
      Option.Rel (fun a b => LaneImage t w map f a.1 b.1 ∧ a.2 = b.2) (access (format, o))
        (access (format, o')) := by
    cases ho with
    | reg hr =>
      simp only [access]
      cases format.access? with
      | none => exact .none
      | some a => exact .some ⟨hr, rfl⟩
    | other ho =>
      cases o with
      | reg _ => cases ho
      | _ => exact .none
  have hops := h.operands
  rw [haccesses rfl, haccesses h.opcode, formats, formats, h.opcode, h.domain,
    ← hops.length_eq]
  generalize ((i.opcode.layout.formats? _).getD []).map _ = fs
  refine rel_filterMap (fun _ _ hpq => hpq) ?_
  generalize i.operands = xs, j.operands = ys at hops
  induction hops generalizing fs with
  | nil => cases fs <;> exact .nil
  | cons ho _ ih =>
    cases fs with
    | nil => exact .nil
    | cons format fs => exact .cons (haccess format ho) (ih fs)

theorem forall₂_filter_fst {p : Access → Bool} {xs ys : List (Reg × Access)}
    (h : Forall₂ (fun a b => LaneImage t w map f a.1 b.1 ∧ a.2 = b.2) xs ys) :
    Forall₂ (LaneImage t w map f) ((xs.filter (p ·.2)).map (·.1))
      ((ys.filter (p ·.2)).map (·.1)) := by
  induction h with
  | nil => exact .nil
  | cons hab _ ih =>
    rw [filter_cons, filter_cons, ← hab.2]
    split
    · exact .cons hab.1 ih
    · exact ih

/-- The instructions read only base registers of the list and those that earlier ones write. -/
def ReadsDefined (t : Template) : List Nat → List Instruction → Prop
  | _, [] => True
  | defined, i :: is => (∀ r ∈ i.reads, t.regs.baseOf r ∈ defined) ∧
      t.ReadsDefined (i.writes.map t.regs.baseOf ++ defined) is

theorem serves_expandFrom (ht : t.regs.Proper) (hpos : 0 < w) {is : List Instruction}
    (his : ∀ i ∈ is, t.Vectorizable i ∧ i.size * w ≤ Wire.maxVectorSize) {defined : List Nat}
    (hreads : t.ReadsDefined defined is) (hdefined : ∀ b ∈ defined, (map.lookup b).isSome)
    (h : Lanes t w n start f map) :
    Serves (t.expandFrom w is map) f fun code g => ∃ map', Lanes t w n start g map' ∧
      Widens f map g map' ∧ Forall₂ (InstructionLane t w map' g) is code := by
  induction is generalizing f map defined with
  | nil => exact .pure ⟨map, h, ⟨.refl f, id⟩, .nil⟩
  | cons i is ih =>
    obtain ⟨hvec, hfit⟩ := his i mem_cons_self
    unfold expandFrom
    rw [if_neg fun hnot => hnot.1 hvec.1]
    simp only [if_pos hvec.1]
    refine .bind (serves_renameOperands ht hpos h fun r hr => ?_) ?_
    · obtain ⟨howns, hr⟩ := hvec.read_or_write hr
      exact ⟨howns, hr.imp_right fun hr => hdefined _ (hreads.1 r hr)⟩
    rintro ⟨operands, map₁⟩ g ⟨hg, hw, himages⟩
    let j : Instruction := ⟨i.opcode, i.domain, i.size * w, operands⟩
    have hij : InstructionLane t w map₁ g i j := ⟨rfl, rfl, rfl, himages⟩
    have hserves : Serves (RegisterM.instruction i.opcode i.domain (i.size * w) operands) g
        fun k h => k = j ∧ h = g := by
      refine .inl ⟨j, g, ?_, rfl, rfl⟩
      rw [RegisterM.instruction, run_bind_ok (run_get g),
        make_lane hvec.2 hvec.1 hpos hfit himages]
      rfl
    refine .bind hserves ?_
    rintro _ _ ⟨rfl, rfl⟩
    refine .bind (ih (fun k hk => his k (mem_cons_of_mem _ hk)) hreads.2 (fun b hb => ?_) hg) ?_
    · rcases mem_append.mp hb with hb | hb
      · obtain ⟨r, hr, rfl⟩ := mem_map.mp hb
        obtain ⟨r', -, himage⟩ := exists_right_of_forall₂
          (forall₂_filter_fst (hij.accesses hvec.ne_callTape)) hr
        obtain ⟨image, hl, -⟩ := himage.place
        exact Option.isSome_iff_exists.mpr ⟨image, hl⟩
      · exact hw.isSome (hdefined b hb)
    rintro code k ⟨map₂, hk, hw', hcode⟩
    refine .pure ⟨map₂, hk, hw.trans hw', .cons ⟨rfl, rfl, rfl, ?_⟩ hcode⟩
    exact himages.imp fun _ _ ho => ho.mono hw'

/-! ## Execution -/

theorem lane_lt_iff {j l a : Nat} (hl : l < w) : j * w + l < a * w ↔ j < a := by
  constructor
  · intro h
    by_contra hle
    have := Nat.mul_le_mul_right w (not_lt.1 hle)
    omega
  · intro h
    have := Nat.mul_le_mul_right w (Nat.succ_le_of_lt h)
    rw [Nat.succ_mul] at this
    omega

theorem LaneImage.slotKey_eq (h : LaneImage t w map f r r') {image : Reg}
    (hl : map.lookup (t.regs.baseOf r) = some image) : f.slotKey r' = f.slotKey image := by
  obtain ⟨image', hl', -, hbase, -⟩ := h.place
  cases hl.symm.trans hl'
  rw [slotKey_eq_keyOf, hbase, slotKey_eq_keyOf]

/-- The state `s` has in each lane the values of the template's registers. -/
def Agrees (t : Template) (w : Nat) (map : Renaming) (f : RegisterFile) (s : Nat × Nat → V)
    (lanes : Nat → Nat × Nat → V) : Prop :=
  ∀ ⦃b r⦄, map.lookup b = some r → ∀ j < (t.regs.data b).size, ∀ l < w,
    s (f.elementOf r (j * w + l)) = lanes l (b, j)

namespace Agrees

theorem elements (h : Agrees t w map f s lanes) (ht : t.regs.Proper) (hlinks : t.regs.Unlinked)
    (himage : LaneImage t w map f r r') {k l : Nat} (hk : k < t.regs.sizeOf r)
    (hlane : l < w) :
    s (f.elementOf r' (k * w + l)) = lanes l (t.regs.elementOf r k) := by
  obtain ⟨image, hl, -, -, hoffset⟩ := himage.place
  have hfits := ht.resolve_add_size_le (owns_iff.mp himage.source).2
  have hagree := h hl ((t.regs.resolve r).2 + k) (by omega) l hlane
  rw [elementOf, himage.slotKey_eq hl, hoffset, Nat.add_assoc, ← Nat.add_assoc (_ * _),
    ← Nat.add_mul, elementOf, hlinks.slotKey]
  exact hagree

theorem write (ht : t.regs.Proper) (hlinks : t.regs.Unlinked) (hmap : Lanes t w n start f map)
    (h : Agrees t w map f s lanes) (himage : LaneImage t w map f r r')
    (hw : t.Writes (t.regs.baseOf r)) {value : Nat → V} {laneValue : Nat → Nat → V}
    (hvalue : ∀ k, ∀ l < w, value (k * w + l) = laneValue l k) :
    Agrees t w map f
      (fun e => if f.HasPlace r' e then value (e.2 - (f.resolve r').2) else s e)
      fun l e => if t.regs.HasPlace r e then laneValue l (e.2 - (t.regs.resolve r).2)
        else lanes l e := by
  obtain ⟨image, hl, -, -, hoffset⟩ := himage.place
  have hslot := himage.slotKey_eq hl
  intro b q hq j hj l hlane
  beta_reduce
  by_cases hb : b = t.regs.baseOf r
  · subst hb
    cases hl.symm.trans hq
    have hlow := lane_lt_iff (j := j) (a := (t.regs.resolve r).2) hlane
    have hhigh := lane_lt_iff (j := j) (a := (t.regs.resolve r).2 + t.regs.sizeOf r) hlane
    rw [Nat.add_mul] at hhigh
    have hiff : f.HasPlace r' (f.elementOf image (j * w + l)) ↔
        t.regs.HasPlace r (t.regs.baseOf r, j) := by
      simp only [HasPlace, elementOf, hslot, hlinks.slotKey, hoffset, himage.size, true_and]
      omega
    by_cases hplace : t.regs.HasPlace r (t.regs.baseOf r, j)
    · have hsub : (t.regs.resolve r).2 * w ≤ j * w := Nat.mul_le_mul_right w hplace.2.1
      rw [if_pos (hiff.mpr hplace), if_pos hplace, ← hvalue _ l hlane]
      congr 1
      rw [Nat.sub_mul, elementOf, hoffset]
      dsimp only
      omega
    · rw [if_neg (hiff.not.mpr hplace), if_neg hplace]
      exact h hl j hj l hlane
  · -- The images of two base registers are apart if one of them is written.
    rw [if_neg, if_neg fun hplace => hb (hplace.1.symm.trans (hlinks.slotKey r))]
    · exact h hq j hj l hlane
    · rintro ⟨heq, hle, hlt⟩
      have hsize := Nat.mul_le_mul_right w
        (ht.resolve_add_size_le (owns_iff.mp himage.source).2)
      have hlast := (lane_lt_iff hlane).mpr hj
      rw [← (hmap.image hl).2.2, Nat.add_mul] at hsize
      rw [← (hmap.image hq).2.2] at hlast
      rw [himage.size] at hlt
      simp only [elementOf, hoffset] at hle hlt
      refine hmap.apart hl hq (Ne.symm hb) hw (f.elementOf q (j * w + l)) ⟨hslot ▸ heq, ?_, ?_⟩
        ⟨rfl, Nat.le_add_right _ _, Nat.add_lt_add_left hlast _⟩
      all_goals
        simp only [elementOf]
        omega

theorem store (ht : t.regs.Proper) (hlinks : t.regs.Unlinked) (hmap : Lanes t w n start f map)
    (h : Agrees t w map f s lanes) {ws ws' : List Reg}
    (hws : Forall₂ (LaneImage t w map f) ws ws')
    (hwritten : ∀ r ∈ ws, t.Writes (t.regs.baseOf r)) {value : Nat → Nat → V}
    {laneValue : Nat → Nat → Nat → V}
    (hvalue : ∀ m k, ∀ l < w, value m (k * w + l) = laneValue l m k) (m : Nat) :
    Agrees t w map f (f.store value (ws'.zipIdx m) s)
      fun l => t.regs.store (laneValue l) (ws.zipIdx m) (lanes l) := by
  induction hws generalizing s lanes m with
  | nil => exact h
  | cons himage _ ih =>
    have hw := hwritten _ mem_cons_self
    exact ih (h.write ht hlinks hmap himage hw (hvalue m))
      (fun r hr => hwritten r (mem_cons_of_mem _ hr)) _

theorem valueAt (ht : t.regs.Proper) (hlinks : t.regs.Unlinked) (h : Agrees t w map f s lanes)
    (F : Elementwise V)
    {i j : Instruction} (hij : InstructionLane t w map f i j)
    (hreads : Forall₂ (LaneImage t w map f) i.reads j.reads) (m k : Nat) {l : Nat}
    (hlane : l < w) :
    j.valueAt F f s m (k * w + l) = i.valueAt F t.regs (lanes l) m k := by
  have hlists {α β γ : Type} {R : α → β → Prop} {xs : List α} {ys : List β} {p : α → γ} {q : β → γ}
      (hxy : Forall₂ R xs ys) (hpq : ∀ x y, R x y → q y = p x) : ys.map q = xs.map p := by
    induction hxy with
    | nil => rfl
    | cons hxy _ ih => rw [map_cons, map_cons, hpq _ _ hxy, ih]
  rw [Instruction.valueAt, Instruction.valueAt, hij.opcode, hij.domain, hlists hij.operands,
    hlists hreads]
  · intro r r' himage
    rw [himage.size]
    simp only [lane_lt_iff hlane]
    split
    · rename_i hk
      rw [h.elements ht hlinks himage hk hlane]
    · rfl
  · rintro o o' (_ | _) <;> rfl

theorem run (ht : t.regs.Proper) (hlinks : t.regs.Unlinked) (hmap : Lanes t w n start f map)
    (F : Elementwise V)
    {is code : List Instruction} (hcode : Forall₂ (InstructionLane t w map f) is code)
    (his : ∀ i ∈ is, i ∈ t.instructions ∧ t.Vectorizable i) (h : Agrees t w map f s lanes) :
    Agrees t w map f (code.foldl (exec F f) s)
      fun l => is.foldl (exec F t.regs) (lanes l) := by
  induction hcode generalizing s lanes with
  | nil => exact h
  | @cons i j _ _ hij _ ih =>
    obtain ⟨hi, hvec⟩ := his i mem_cons_self
    have haccesses := hij.accesses hvec.ne_callTape
    refine ih (fun k hk => his k (mem_cons_of_mem _ hk)) (h.store ht hlinks hmap
      (forall₂_filter_fst haccesses) (fun r hr => ⟨i, hi, r, hr, rfl⟩) (fun m k l hlane => ?_) 0)
    exact h.valueAt ht hlinks F hij (forall₂_filter_fst haccesses) m k hlane

end Agrees

/-! ## Call sites -/

/-- What lane `l` of a state at a call site is for the template: the parameters have the values of
the arguments, and other registers the value `z`. -/
def laneOf (t : Template) (w : Nat) (f : RegisterFile) (args : List Reg) (z : V)
    (s : Nat × Nat → V) (l : Nat) (e : Nat × Nat) : V :=
  match (t.startRenaming args).lookup e.1 with
  | some arg => s (f.elementOf arg (e.2 * w + l))
  | none => z

/-- A call site runs the template once per lane, if no registers of the template are linked. The
instructions of the template read only parameters and what earlier ones wrote, and an argument that
is written shares no place with another one. Unless registers run out, expansion succeeds, with
instructions and registers `w` times as wide, with the arguments for the parameters and new
registers for all others. Whatever the opcodes compute, element by element: in the end element
`k * w + l` of a register at the site has the value that element `k` of the register of the template
has when the template is run on lane `l` of the arguments. -/
theorem expand_runs_lanes (t : Template) (ht : t.regs.Proper) (hlinks : t.regs.Unlinked)
    (hvec : ∀ i ∈ t.instructions, t.Vectorizable i)
    (hreads : t.ReadsDefined (t.params.map (·.id)) t.instructions) {f : RegisterFile}
    (hf : f.Valid) (w : Nat) (hpos : 0 < w)
    (hfit : ∀ i ∈ t.instructions, i.size * w < 2 ^ 32) (args : List Reg)
    (hlen : args.length = t.params.length)
    (hargs : ∀ (k : Nat) (p a : Reg), t.params[k]? = some p → args[k]? = some a →
      f.owns a ∧ f.classOf a = t.regs.classOf p ∧ f.sizeOf a = t.regs.sizeOf p * w)
    (hapart : ∀ (k m : Nat) (p a b : Reg), t.params[k]? = some p → args[k]? = some a →
      args[m]? = some b → k ≠ m → t.Writes p.id → ∀ e, f.HasPlace a e → ¬ f.HasPlace b e)
    (hroom : ∀ cls n, ((t.expand args w).run f).1 ≠
      .error (.exhausted .registers cls n maxVirtual))
    (F : Elementwise V) (z : V) (s : Nat × Nat → V) (hblank : ∀ b k, f.size ≤ b → s (b, k) = z) :
    ∃ code g map, (t.expand args w).run f = (.ok code, g) ∧ Extends f g ∧
      Forall₂ (InstructionLane t w map g) t.instructions code ∧
      (∀ b r, (t.startRenaming args).lookup b = some r → map.lookup b = some r) ∧
      (∀ b r, map.lookup b = some r →
        (t.startRenaming args).lookup b = some r ∨ f.size ≤ g.slotKey r) ∧
      ∀ r r', LaneImage t w map g r r' → ∀ k < t.regs.sizeOf r, ∀ l < w,
        code.foldl (exec F g) s (g.elementOf r' (k * w + l)) =
          t.instructions.foldl (exec F t.regs) (t.laneOf w f args z s l)
            (t.regs.elementOf r k) := by
  have hstart : Lanes t w f.size (t.startRenaming args) f (t.startRenaming args) := by
    refine ⟨hf, le_rfl, fun hl => ?_, .inl, ?_⟩
    · obtain ⟨k, p, hp, rfl, ha⟩ := exists_of_lookup_startRenaming hl
      exact hargs k p _ hp ha
    · intro b c r q hr hq hne hw
      obtain ⟨k, p, hp, rfl, ha⟩ := exists_of_lookup_startRenaming hr
      obtain ⟨m, p', hp', rfl, ha'⟩ := exists_of_lookup_startRenaming hq
      refine hapart k m p r q hp ha ha' ?_ hw
      rintro rfl
      cases hp.symm.trans hp'
      exact hne rfl
  have hdefined : ∀ b ∈ t.params.map (·.id), ((t.startRenaming args).lookup b).isSome := by
    intro b hb
    obtain ⟨p, hp, rfl⟩ := mem_map.mp hb
    obtain ⟨k, hk⟩ := mem_iff_getElem?.mp hp
    obtain ⟨hlt, -⟩ := List.getElem?_eq_some_iff.mp hk
    have hmem : (p.id, args[k]) ∈ (t.params.map (·.id)).zip args :=
      mem_of_getElem? (i := k) (getElem?_zip_eq_some.mpr ⟨by simp [hk], getElem?_eq_getElem _⟩)
    rw [Option.isSome_iff_ne_none]
    intro hnone
    simpa using lookup_eq_none_iff.mp hnone _ (mem_reverse.mpr hmem)
  have hexpand : t.expand args w = t.expandFrom w t.instructions (t.startRenaming args) := by
    simp [expand, hlen, startRenaming]
  rw [hexpand] at hroom ⊢
  rcases serves_expandFrom ht hpos (fun i hi => ⟨hvec i hi, le_trans (hfit i hi).le (by decide)⟩)
    hreads hdefined hstart with ⟨code, g, hrun, map, hlanes, hw, hcode⟩ | ⟨cls, n, hfull⟩
  · have hinit : Agrees t w map g s (t.laneOf w f args z s) := by
      intro b r hl j hj l hlane
      rw [laneOf]
      cases hb : (t.startRenaming args).lookup b with
      | some arg =>
        cases (hw.old hb).symm.trans hl
        have hid := hstart.id_lt hb
        simp only [elementOf, hw.ext.slotKey hf hid, hw.ext.resolve hid]
      | none =>
        rcases hlanes.new hl with hold | hnew
        · cases hb.symm.trans hold
        · exact hblank _ _ hnew
    have hend := hinit.run ht hlinks hlanes F hcode fun i hi => ⟨hi, hvec i hi⟩
    exact ⟨code, g, map, hrun, hw.ext, hcode, fun b r => hw.old, fun b r => hlanes.new,
      fun r r' himage k hk l hlane => hend.elements ht hlinks himage hk hlane⟩
  · exact absurd hfull (hroom cls n)

def doubling : Template where
  key := ⟨"double", [], 40, .base⟩
  signature := [(.int, .read), (.int, .write)]
  params := [⟨0, 0⟩, ⟨0, 3⟩]
  regs := twoNumbers
  instructions := [⟨.addint, .base, 2, [.reg ⟨0, 3⟩, .reg ⟨0, 0⟩, .reg ⟨0, 0⟩]⟩]
  rounds := 0
  io := false
  touchesMemory := false
  bitLengths := {}
  extra := default

/-- The file of the template, with two registers for arguments of twice the size. -/
def fourNumbers : RegisterFile :=
  { twoNumbers with
    regs := twoNumbers.regs ++
      #[{ cls := .int, size := 4, index := 6 }, { cls := .int, size := 4, index := 10 }]
    counters := (PerClass.fill 6).set .int 14 }

/-- Sums of two values that are read; an instruction that loads a number gives that number. -/
def summing : Elementwise Int
  | .ldi, _, [_, some (.number n)], _, _ => n
  | _, _, _, [some a, some b], _ => a + b
  | _, _, _, _, _ => 0

/-- Two vectors are doubled at once, and the last element of the second is 4 before and 8 after. -/
theorem expand_runs_lanes_doubling : ∃ code g,
    (doubling.expand [⟨0, 5⟩, ⟨0, 6⟩] 2).run fourNumbers = (.ok code, g) ∧ code.length = 1 ∧
      code.foldl (exec summing g) (fun e => if e.1 = 5 then e.2 + 1 else 0) (6, 3) = 8 := by
  have hvalid : fourNumbers.Valid := by
    have hfirst : twoNumbers.create .int 4 = .ok (⟨0, 5⟩, { twoNumbers with
      regs := twoNumbers.regs.push { cls := .int, size := 4, index := 6 }
      counters := (PerClass.fill 6).set .int 10 }) := rfl
    have hsecond := (of_create_eq_ok hfirst).2.2.2.1 proper_twoNumbers.toValid
    exact (of_create_eq_ok (show RegisterFile.create _ .int 4 = .ok (⟨0, 6⟩, fourNumbers) from
      rfl)).2.2.2.1 hsecond
  have hroom : (match ((doubling.expand [⟨0, 5⟩, ⟨0, 6⟩] 2).run fourNumbers).1 with
    | .error (.exhausted ..) => true
    | _ => false) = false := by decide +kernel
  have hargs (k : Nat) (p a : Reg) (hp : doubling.params[k]? = some p)
      (ha : [(⟨0, 5⟩ : Reg), ⟨0, 6⟩][k]? = some a) : fourNumbers.owns a ∧
        fourNumbers.classOf a = twoNumbers.classOf p ∧
        fourNumbers.sizeOf a = twoNumbers.sizeOf p * 2 := by
    rcases k with _ | _ | k <;> cases hp <;> cases ha <;> decide
  have hslot {k : Nat} {a : Reg} (ha : [(⟨0, 5⟩ : Reg), ⟨0, 6⟩][k]? = some a) :
      fourNumbers.slotKey a = k + 5 := by
    rcases k with _ | _ | k <;> cases ha <;> decide
  obtain ⟨code, g, map, hrun, hext, hcode, hold, -, hvalues⟩ := expand_runs_lanes doubling
    proper_twoNumbers (fun id => by rcases id with _ | _ | _ | _ | _ | id <;> rfl)
    (by simp only [doubling, forall_mem_cons]; exact ⟨⟨rfl, rfl⟩, nofun⟩) ⟨by decide, trivial⟩
    hvalid 2 (by decide) (by decide) [⟨0, 5⟩, ⟨0, 6⟩] rfl hargs
    (fun k m p a b _ ha hb hne _ e hplace hplace' => hne (Nat.add_right_cancel
      ((hslot ha).symm.trans ((hplace.1.trans hplace'.1.symm).trans (hslot hb)))))
    (fun cls n h => by rw [h] at hroom; cases hroom) summing 0
    (fun e => if e.1 = 5 then (e.2 : Int) + 1 else 0)
    (fun b k hb => if_neg (by rintro rfl; exact absurd hb (by decide)))
  have hlt : 6 < fourNumbers.size := by decide
  have howns : g.owns ⟨0, 6⟩ := hext.owns (by decide)
  have himage : LaneImage doubling 2 map g ⟨0, 3⟩ ⟨0, 6⟩ := by
    refine ⟨by decide, howns, ?_, hext.sizeOf hlt, ⟨0, 6⟩, hold 3 _ rfl, howns, rfl, rfl⟩
    rw [classOf, hext.data _ hlt]
    rfl
  have hplace : g.elementOf ⟨0, 6⟩ (1 * 2 + 1) = (6, 3) := by
    rw [elementOf, hext.slotKey hvalid hlt, hext.resolve hlt]
    rfl
  have hvalue := hvalues _ _ himage 1 (by decide) 1 (by decide)
  rw [hplace] at hvalue
  exact ⟨code, g, hrun, hcode.length_eq.symm, hvalue.trans (by decide)⟩

open BuildM in
/-- A macro links two registers, and reads in one of them what it wrote to the other. -/
def readThroughLink : BuildM Unit := do
  let linked : MacroBody := ⟨"linked", [], [(.clear, .write)], fun args => do
    let a ← newVector .clear 1
    let b ← newVector .clear 1
    emit .ldi [.reg b, .number 1]
    BuildM.link a b
    emit .ldi [.reg a, .number 5]
    emitRegs .addc [args.headD default, b, b]⟩
  callMacro linked [← newVector .clear 1]

/-- The template adds 5 and 5, and its expansion 1 and 1: the images of linked registers are not
linked. -/
theorem expand_loses_links :
    let p := Program.builtBy readThroughLink
    let t := p.macros.templates.headD default
    let out := (t.expand [⟨0, 0⟩] 1).run (p.tapeAt 0).regs
    t.instructions = [⟨.ldi, .base, 1, [.reg ⟨1, 2⟩, .number 1]⟩,
        ⟨.ldi, .base, 1, [.reg ⟨1, 1⟩, .number 5]⟩,
        ⟨.addc, .base, 1, [.reg ⟨1, 0⟩, .reg ⟨1, 2⟩, .reg ⟨1, 2⟩]⟩] ∧
      t.instructions.foldl (exec summing t.regs) (fun _ => 0) (t.regs.elementOf ⟨1, 0⟩ 0) = 10 ∧
      out.1.toOption.map
        (fun code => code.foldl (exec summing out.2) (fun _ => 0) (0, 0)) = some 2 := by
  decide +kernel

end Template

/-! ## Batches -/

/-- The parameter and the register that an operand group of a tape call ties together. -/
def Instruction.callLink : List Operand → Option (Reg × Reg)
  | [_, _, .callee p, .reg r] => some (p, r)
  | _ => none

/-- The state after an instruction of a program. A tape that is called runs its code straight
through, from its inputs and `z` elsewhere. -/
def Program.exec (p : Program) (F : Elementwise V) (z : V) (f : RegisterFile) (s : Nat × Nat → V)
    (i : Instruction) : Nat × Nat → V :=
  if i.opcode = .callTape then
    let callee := p.tapeAt ((i.operands.head?.bind Operand.number?).getD 0).toNat
    let inputs := (i.groups.take i.callInputs.toNat).filterMap callLink
    let outputs := (i.groups.drop i.callInputs.toNat).filterMap callLink
    let code := callee.blocks.toList.flatMap fun b => b.ops.filterMap Op.inst?
    let start := callee.regs.store (fun n k => s (f.elementOf (inputs.getD n default).2 k))
      (inputs.map (·.1)).zipIdx fun _ => z
    let result := code.foldl (Instruction.exec F callee.regs) start
    f.store (fun n k => result (callee.regs.elementOf (outputs.getD n default).1 k))
      (outputs.map (·.2)).zipIdx s
  else i.exec F f s

namespace BuildM

/-- A macro finalizes a function, for which a tape is made that doubles. The macro is rejected and
the tape is dropped, but still noted for batches, and a function that subtracts gets its number. -/
def doubleTwice : BuildM Unit := do
  let double : MacroBody := ⟨"double", [], [(.secret, .read), (.secret, .write)], fun args =>
    emitRegs .adds [args.getD 1 default, args.getD 0 default, args.getD 0 default]⟩
  let doubling : BuildM Unit := do
    callMacro double [← newVector .secret 1, ← newVector .secret 1]
  modify ({ · with policy := .callAlways })
  let f ← newFunction "f" doubling
  let _ ← attempt (callMacro ⟨"early", [], [], fun _ => finalizeTape f.1⟩ [])
  let _ ← newFunction "g" (pure ())
  let _ ← newFunction "h" do
    let x ← tapeParameter .secret 1
    let y ← tapeParameter .secret 1
    emitRegs .subs [y, x, x]
  doubling

def arithmetic : Elementwise Int
  | .adds, _, _, [some a, some b], _ => a + b
  | .subs, _, _, [some a, some b], _ => a - b
  | .movs, _, _, [some a], _ => a
  | _, _, _, _, _ => 0

/-- The second register of the main tape after code that is made for it, from a state of ones. -/
def secondAfter (p : Program) (act : BuildM (List Instruction)) : Option Int :=
  let out := act.run p
  out.1.toOption.map fun code =>
    code.foldl (out.2.exec arithmetic 0 (out.2.tapeAt 0).regs) (fun _ => 1) (1, 0)

/-- The batch of the main tape subtracts where the expansion of its site doubles. -/
theorem batch_calls_other_tape :
    let p := Program.builtBy doubleTwice
    let block := (p.tapeAt 0).block 0
    let c : MacroCall := ⟨p.macros.templates.headD default, [⟨[⟨0, 0⟩, ⟨0, 1⟩], 1⟩]⟩
    block.ops = [.call c] ∧ secondAfter p (batchedCall 0 block.node c) = some 0 ∧
      secondAfter p (inlineCall 0 block.node c) = some 2 := by
  decide +kernel

end BuildM

end SecureTape
