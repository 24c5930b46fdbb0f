import SecureTape.Proofs.Accesses
import SecureTape.Proofs.Registers

/-!
# Instructions on the registers of a file

`Instruction.Typed`: what construction checks of an instruction against a register file. It stays
true when the file gets more registers, when instructions are merged and when a jump gets its
offset.

1. `typed_of_make`: construction gives typed instructions.
2. `Typed.keeps`, `Typed.absorb`, `Typed.withJumpOffset`: what is done to instructions later keeps
   them typed.
-/

namespace SecureTape

open RegisterFile List

variable {f g : RegisterFile} {position size : Nat} {format : OperandFormat} {operand : Operand}
  {opcode : Opcode} {fs : List OperandFormat}

/-- An operand has the kind that its format asks for. A register belongs to the file; where the
format fixes a class it has that class, and as many elements as the instruction. -/
inductive OperandTyped (regs : RegisterFile) (size : Nat) : OperandFormat → Operand → Prop
  | reg {cls : RegisterClass} {a : Access} {r : Reg} (howns : regs.owns r = true)
      (hcls : regs.classOf r = cls) (hsize : regs.sizeOf r = size) :
      OperandTyped regs size (.reg cls a) (.reg r)
  | anyReg {a : Access} {r : Reg} (howns : regs.owns r = true) :
      OperandTyped regs size (.anyReg a) (.reg r)
  | callee (r : Reg) : OperandTyped regs size .callee (.callee r)
  | imm (value : Int) : OperandTyped regs size .imm (.number value)
  | int (value : Int) : OperandTyped regs size .int (.number value)
  | long (value : Int) : OperandTyped regs size .long (.number value)
  | player (value : Int) : OperandTyped regs size .player (.number value)
  | text {s : String} (hp : isPlainText s) (hs : s.utf8ByteSize ≤ textFieldWidth) :
      OperandTyped regs size .text (.text s)
  | longText {s : String} (hp : isPlainText s) (hs : s.utf8ByteSize ≤ maxLongText) :
      OperandTyped regs size .longText (.text s)

theorem OperandTyped.keeps (h : OperandTyped f size format operand) (hg : Keeps f g) :
    OperandTyped g size format operand := by
  cases h with
  | reg howns hcls hsize =>
    exact .reg (hg.owns howns) ((hg.classOf howns).trans hcls) ((hg.sizeOf howns).trans hsize)
  | anyReg howns => exact .anyReg (hg.owns howns)
  | callee r => exact .callee r
  | imm value => exact .imm value
  | int value => exact .int value
  | long value => exact .long value
  | player value => exact .player value
  | text hp hs => exact .text hp hs
  | longText hp hs => exact .longText hp hs

namespace Instruction

variable {regs : RegisterFile} {i j : Instruction}

/-- The form exists, the size fits it and the code word, and the operands fit the layout. -/
structure Typed (regs : RegisterFile) (i : Instruction) : Prop where
  form : i.domain = .extension → i.opcode.hasExtension
  size_pos : 0 < i.size
  size_le : i.size ≤ Wire.maxVectorSize
  size_scalar : i.opcode.isVector = false → i.size = 1
  layout : i.HasLayout
  operands : List.Forall₂ (OperandTyped regs i.size) i.formats i.operands

/-! ## Construction -/

theorem operandTyped_of_check (h : checkOperand opcode size regs position format operand = .ok ()) :
    OperandTyped regs size format operand := by
  have howner {cls : RegisterClass} {a : Access} {r : Reg}
      (h : checkOperand opcode size regs position (.reg cls a) (.reg r) = .ok ()) :
      regs.classOf r = cls ∧ regs.sizeOf r = size := by
    simp only [checkOperand, bind, Except.bind] at h
    split at h
    · cases h
    · split at h
      · cases h
      · rename_i hcls
        split at h
        · cases h
        · rename_i hsize
          exact ⟨Decidable.not_not.1 hcls, Decidable.not_not.1 hsize⟩
  cases operandFits_of_check h with
  | reg cls a r =>
    exact .reg (owns_of_checkOperand rfl h) (howner h).1 (howner h).2
  | anyReg a r => exact .anyReg (owns_of_checkOperand rfl h)
  | callee r => exact .callee r
  | imm _ => exact .imm _
  | int _ => exact .int _
  | long value => exact .long value
  | player _ => exact .player _
  | text hp hs => exact .text hp hs
  | longText hp hs => exact .longText hp hs

theorem typed_of_make {domain : FieldDomain} {operands : List Operand}
    (h : Instruction.make opcode domain size operands regs = .ok i) : i.Typed regs := by
  have hwf := wellFormed_of_make h
  obtain ⟨-, -, fs, hfs, hcheck, rfl⟩ := of_make_eq_ok h
  refine ⟨hwf.form, hwf.size_pos, hwf.size_le, hwf.size_scalar, hwf.hasLayout, ?_⟩
  refine forall₂_iff_zip.2 ⟨hwf.fits.length_eq, ?_⟩
  intro format operand hmem
  simp only [formats, hfs, Option.getD_some] at hmem
  obtain ⟨_, hc⟩ := checkOperand_of_mem_zip hcheck hmem
  exact operandTyped_of_check hc

/-! ## What keeps instructions typed -/

theorem Typed.keeps (h : i.Typed f) (hg : Keeps f g) : i.Typed g :=
  ⟨h.form, h.size_pos, h.size_le, h.size_scalar, h.layout,
    h.operands.imp fun _ _ ho => ho.keeps hg⟩

theorem Typed.absorb (hi : i.Typed regs) (hj : j.Typed regs) (hk : i.mergeKey = j.mergeKey) :
    (i.absorb j).Typed regs := by
  cases hl : j.opcode.layout with
  | fixed fs => rwa [absorb_eq_self hl hj.layout]
  | grouped head group =>
    obtain ⟨hcount, hformats⟩ := formats_absorb hl hi.layout hj.layout hk
    have hsize : j.size = i.size := (congrArg MergeKey.size hk).symm
    refine ⟨hi.form, hi.size_pos, hi.size_le, hi.size_scalar, hcount, ?_⟩
    rw [hformats]
    simp only [Instruction.absorb, hl, OperandLayout.headLength]
    refine rel_append hi.operands (forall₂_drop _ ?_)
    rw [← hsize]
    exact hj.operands

theorem HasLayout.length_of_fixed (h : i.HasLayout) (hl : i.opcode.layout = .fixed fs) :
    i.operands.length = fs.length := by
  rw [HasLayout, hl, OperandLayout.formats?] at h
  split at h
  · rename_i hlen
    exact hlen.symm
  · cases h

theorem HasLayout.formats_of_fixed (h : i.HasLayout) (hl : i.opcode.layout = .fixed fs) :
    i.formats = fs.map (·.inDomain i.domain) := by
  have hlen := h.length_of_fixed hl
  simp [formats, hl, OperandLayout.formats?, hlen]

theorem HasLayout.format_of_jumpOperand? (h : i.HasLayout) (hjump : i.jumpOperand? = some position) :
    i.formats[position]? = some .int := by
  obtain ⟨opcode, domain, size, operands⟩ := i
  cases opcode <;> cases hjump <;> rw [h.formats_of_fixed rfl] <;> rfl

theorem Typed.withJumpOffset (h : i.Typed regs) (offset : Int) :
    (i.withJumpOffset offset).Typed regs := by
  unfold Instruction.withJumpOffset
  split
  · rename_i position hjump
    have hformat := h.layout.format_of_jumpOperand? hjump
    have hlayout : HasLayout { i with operands := i.operands.set position (.number offset) } := by
      rw [HasLayout, length_set]
      exact h.layout
    have hformats : formats { i with operands := i.operands.set position (.number offset) } =
        i.formats := by
      simp only [formats, length_set]
    refine ⟨h.form, h.size_pos, h.size_le, h.size_scalar, hlayout, ?_⟩
    rw [hformats]
    refine forall₂_iff_get.2 ⟨by simp [h.operands.length_eq], ?_⟩
    intro k hk hk'
    have hold := Forall₂.get h.operands hk (by simpa using hk')
    simp only [get_eq_getElem, getElem_set] at hold ⊢
    split
    · rename_i heq
      subst heq
      rw [getElem?_eq_getElem hk, Option.some.injEq] at hformat
      rw [hformat]
      exact .int offset
    · exact hold
  · exact h

theorem Typed.owns (h : i.Typed regs) {r : Reg} {a : Access} (hr : (r, a) ∈ i.accesses) :
    regs.owns r := by
  obtain ⟨position, f, hget, ha⟩ := mem_accesses_iff.1 hr
  have hmem := mem_of_getElem? hget
  cases (forall₂_iff_zip.1 h.operands).2 hmem with
  | reg howns | anyReg howns => exact howns

end Instruction

end SecureTape
