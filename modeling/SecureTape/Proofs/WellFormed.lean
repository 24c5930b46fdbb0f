import Mathlib.Data.List.Forall2
import Mathlib.Tactic.Common
import SecureTape.Instruction

/-!
# Well-formed instructions

`Instruction.Built` are the instructions that construction accepts, and those that merging puts
together from them. `Built.wellFormed` says what the passes behind construction rely on: the form
exists, the size is positive, fits the code word and is 1 without a vector form, the operands fit
the layout, and each operand fits its format.
-/

namespace SecureTape

open List OperandLayout Instruction

variable {fs group head : List OperandFormat} {position : Nat}

/-- An operand has the kind and the range that its format asks for. -/
inductive OperandFits : OperandFormat → Operand → Prop
  | reg (cls : RegisterClass) (a : Access) (r : Reg) : OperandFits (.reg cls a) (.reg r)
  | anyReg (a : Access) (r : Reg) : OperandFits (.anyReg a) (.reg r)
  | callee (r : Reg) : OperandFits .callee (.callee r)
  | imm {value : Int} (h : fitsSigned32 value) : OperandFits .imm (.number value)
  | int {value : Int} (h : fitsSigned32 value) : OperandFits .int (.number value)
  | long (value : Int) : OperandFits .long (.number value)
  | player {value : Int} (h : fitsSigned32 value) : OperandFits .player (.number value)
  | text {s : String} (hp : isPlainText s) (hs : s.utf8ByteSize ≤ textFieldWidth) :
      OperandFits .text (.text s)
  | longText {s : String} (hp : isPlainText s) (hs : s.utf8ByteSize ≤ maxLongText) :
      OperandFits .longText (.text s)

namespace OperandLayout

theorem formats?_grouped (hg : group ≠ []) (n : Nat) :
    (grouped head group).formats? (head.length + n * group.length) =
      some (head ++ (List.replicate n group).flatten) := by
  have hpos : 0 < group.length := length_pos_iff.2 hg
  have hsub : head.length + n * group.length - head.length = n * group.length := by omega
  simp only [formats?, hsub, Nat.mul_mod_left, Nat.mul_div_cancel _ hpos]
  rw [if_neg]
  simp [hg]

theorem exists_of_formats?_grouped {count : Nat}
    (h : (grouped head group).formats? count = some fs) :
    group ≠ [] ∧ ∃ n, count = head.length + n * group.length ∧
      fs = head ++ (List.replicate n group).flatten := by
  simp only [formats?] at h
  split at h
  · simp at h
  · rename_i hne
    simp only [not_or, Nat.not_lt, ne_eq, Decidable.not_not, List.isEmpty_iff] at hne
    obtain ⟨hle, hg, hmod⟩ := hne
    refine ⟨hg, (count - head.length) / group.length, ?_, (Option.some.inj h).symm⟩
    have := Nat.div_add_mod (count - head.length) group.length
    rw [Nat.mul_comm]
    omega

end OperandLayout

namespace Instruction

/-- The instructions that construction accepts, and those that absorbing alike ones gives. -/
inductive Built : Instruction → Prop
  | make {opcode : Opcode} {domain : FieldDomain} {size : Nat} {operands : List Operand}
      {regs : RegisterFile} {i : Instruction}
      (h : Instruction.make opcode domain size operands regs = .ok i) : Built i
  | absorb {i j : Instruction} (hi : Built i) (hj : Built j) (hk : i.mergeKey = j.mergeKey) :
      Built (i.absorb j)

/-- The number of operands is one that the layout of the opcode takes. -/
def HasLayout (i : Instruction) : Prop := (i.opcode.layout.formats? i.operands.length).isSome

/-- What every built instruction satisfies. -/
structure WellFormed (i : Instruction) : Prop where
  form : i.domain = .extension → i.opcode.hasExtension
  size_pos : 0 < i.size
  size_le : i.size ≤ Wire.maxVectorSize
  size_scalar : i.opcode.isVector = false → i.size = 1
  count : (i.opcode.layout.formats? i.operands.length).isSome
  fits : List.Forall₂ OperandFits i.formats i.operands

variable {i j : Instruction} {opcode : Opcode} {size : Nat} {regs : RegisterFile}
  {domain : FieldDomain} {operands : List Operand} {fs : List OperandFormat}

theorem WellFormed.hasLayout (h : i.WellFormed) : i.HasLayout := h.count

theorem HasLayout.length_formats (h : i.HasLayout) : i.formats.length = i.operands.length := by
  obtain ⟨fs, hfs⟩ := Option.isSome_iff_exists.1 h
  rw [formats, hfs, Option.getD_some, length_map]
  exact length_of_formats? hfs

/-! ## Construction -/

theorem operandFits_of_check {format : OperandFormat} {operand : Operand}
    (h : checkOperand opcode size regs position format operand = .ok ()) :
    OperandFits format operand := by
  have hnum {f : OperandFormat} {value : Int} {g : OperandFault → CompileError}
      (h : (checkNumber f value).mapError g = .ok ()) : checkNumber f value = .ok () := by
    cases hc : checkNumber f value with
    | ok => rfl
    | error => rw [hc] at h; cases h
  have htext {f : OperandFormat} {s : String} {g : OperandFault → CompileError}
      (h : (checkText f s).mapError g = .ok ()) : checkText f s = .ok () := by
    cases hc : checkText f s with
    | ok => rfl
    | error => rw [hc] at h; cases h
  cases format <;> cases operand <;> simp only [checkOperand] at h <;> try cases h
  case reg.reg => exact .reg ..
  case anyReg.reg => exact .anyReg ..
  case callee.callee => exact .callee ..
  case imm.number =>
    have h := hnum h
    simp only [checkNumber] at h
    split at h
    · exact .imm ‹_›
    · cases h
  case int.number =>
    have h := hnum h
    simp only [checkNumber] at h
    split at h
    · exact .int ‹_›
    · cases h
  case long.number => exact .long _
  case player.number =>
    have h := hnum h
    simp only [checkNumber] at h
    split at h
    · rename_i hc
      exact .player hc.2
    · cases h
  case text.text =>
    have h := htext h
    simp only [checkText] at h
    split_ifs at h with hp hs
    exact .text hp hs
  case longText.text =>
    have h := htext h
    simp only [checkText] at h
    split_ifs at h with hp hs
    exact .longText hp hs

theorem forall₂_of_checkOperands :
    ∀ {position : Nat} {fs : List OperandFormat} {os : List Operand}, fs.length = os.length →
      checkOperands opcode size regs position fs os = .ok () → Forall₂ OperandFits fs os
  | _, [], [], _, _ => .nil
  | position, f :: fs, o :: os, hlen, h => by
    simp only [checkOperands, bind, Except.bind] at h
    split at h
    · cases h
    · rename_i hc
      exact .cons (operandFits_of_check hc) (forall₂_of_checkOperands (by simpa using hlen) h)

theorem of_make_eq_ok (h : make opcode domain size operands regs = .ok i) :
    (domain = .extension → opcode.hasExtension) ∧ (size ≠ 0 ∧ size ≤ Wire.maxVectorSize) ∧
      ∃ fs, opcode.layout.formats? operands.length = some fs ∧
        checkOperands opcode (if opcode.isVector then size else 1) regs 0
          (fs.map (·.inDomain domain)) operands = .ok () ∧
        i = ⟨opcode, domain, if opcode.isVector then size else 1, operands⟩ := by
  simp only [make, bind, Except.bind, pure, Except.pure, throw, throwThe,
    MonadExceptOf.throw] at h
  by_cases hform : domain = .extension ∧ ¬ opcode.hasExtension
  · rw [if_pos hform] at h
    cases h
  by_cases hsize : size = 0
  · rw [if_neg hform, if_pos hsize] at h
    cases h
  by_cases hmax : Wire.maxVectorSize < size
  · rw [if_neg hform, if_neg hsize, if_pos hmax] at h
    cases h
  rw [if_neg hform, if_neg hsize, if_neg hmax] at h
  split at h
  · cases h
  · rename_i fs hfs
    split at h
    · cases h
    · rename_i hcheck
      cases h
      refine ⟨?_, ⟨hsize, Nat.le_of_not_lt hmax⟩, fs, hfs, hcheck, rfl⟩
      intro hd
      by_contra hne
      exact hform ⟨hd, hne⟩

theorem wellFormed_of_make (h : make opcode domain size operands regs = .ok i) :
    i.WellFormed := by
  obtain ⟨hform, hsize, fs, hfs, hcheck, rfl⟩ := of_make_eq_ok h
  have hlen := length_of_formats? hfs
  refine ⟨hform, ?_, ?_, ?_, by simp [hfs], ?_⟩
  · show 0 < if opcode.isVector then size else 1
    split <;> omega
  · show (if opcode.isVector then size else 1) ≤ Wire.maxVectorSize
    split
    · exact hsize.2
    · decide
  · intro hv
    simpa using fun h => absurd h (by simp [show opcode.isVector = false from hv])
  · simp only [formats, hfs, Option.getD_some]
    exact forall₂_of_checkOperands (by simpa using hlen) hcheck

theorem checkOperands_cons {f : OperandFormat} {o : Operand} {os : List Operand} :
    checkOperands opcode size regs position (f :: fs) (o :: os) = .ok () ↔
      checkOperand opcode size regs position f o = .ok () ∧
        checkOperands opcode size regs (position + 1) fs os = .ok () := by
  rw [checkOperands]
  cases checkOperand opcode size regs position f o with
  | error e => exact ⟨fun h => (by cases h), fun h => (by cases h.1)⟩
  | ok _ => exact ⟨fun h => ⟨rfl, h⟩, fun h => h.2⟩

theorem make_eq_ok
    (hdomain : domain = .extension → opcode.hasExtension)
    (hsize : size ≠ 0 ∧ size ≤ Wire.maxVectorSize)
    (hfs : opcode.layout.formats? operands.length = some fs)
    (hcheck : checkOperands opcode (if opcode.isVector then size else 1) regs 0
      (fs.map (·.inDomain domain)) operands = .ok ()) :
    make opcode domain size operands regs =
      .ok ⟨opcode, domain, if opcode.isVector then size else 1, operands⟩ := by
  have hform : ¬ (domain = .extension ∧ ¬ opcode.hasExtension) := fun h => h.2 (hdomain h.1)
  simp only [make, bind, Except.bind, pure, Except.pure, throw, throwThe, MonadExceptOf.throw]
  rw [if_neg hform, if_neg hsize.1, if_neg (Nat.not_lt.2 hsize.2), hfs]
  simp only [hcheck]

theorem Built.of_make_self (regs : RegisterFile)
    (h : Instruction.make i.opcode i.domain i.size i.operands regs = .ok i) : i.Built :=
  .make h

/-! ## Absorbing -/

@[simp] theorem absorb_opcode (i j : Instruction) : (i.absorb j).opcode = i.opcode := rfl
@[simp] theorem absorb_domain (i j : Instruction) : (i.absorb j).domain = i.domain := rfl
@[simp] theorem absorb_size (i j : Instruction) : (i.absorb j).size = i.size := rfl

theorem absorb_eq_self (hj : j.opcode.layout = .fixed fs)
    (hcount : (j.opcode.layout.formats? j.operands.length).isSome) : i.absorb j = i := by
  obtain ⟨gs, hgs⟩ := Option.isSome_iff_exists.1 hcount
  have hlen := length_of_formats? hgs
  have hdrop : j.operands.drop j.opcode.layout.headLength = [] := by
    rw [hj] at hgs ⊢
    simp only [formats?] at hgs
    split_ifs at hgs with hl
    simp [headLength, hl]
  simp [absorb, hdrop]

theorem formats_grouped (hl : i.opcode.layout = .grouped head group)
    (hcount : (i.opcode.layout.formats? i.operands.length).isSome) :
    ∃ n, i.operands.length = head.length + n * group.length ∧
      i.formats = head.map (·.inDomain i.domain) ++
        (List.replicate n (group.map (·.inDomain i.domain))).flatten := by
  obtain ⟨fs, hfs⟩ := Option.isSome_iff_exists.1 hcount
  have hfs' := hfs
  rw [hl] at hfs'
  obtain ⟨-, n, hn, rfl⟩ := exists_of_formats?_grouped hfs'
  refine ⟨n, hn, ?_⟩
  simp [formats, hfs, map_flatten]

theorem formats_absorb (hl : j.opcode.layout = .grouped head group)
    (hi : (i.opcode.layout.formats? i.operands.length).isSome)
    (hj : (j.opcode.layout.formats? j.operands.length).isSome) (hk : i.mergeKey = j.mergeKey) :
    ((i.absorb j).opcode.layout.formats? (i.absorb j).operands.length).isSome ∧
      (i.absorb j).formats = i.formats ++ j.formats.drop head.length := by
  have hop : i.opcode = j.opcode := congrArg MergeKey.opcode hk
  have hdom : i.domain = j.domain := congrArg MergeKey.domain hk
  obtain ⟨n, hn, hfi⟩ := formats_grouped (hop ▸ hl) hi
  obtain ⟨m, hm, hfj⟩ := formats_grouped hl hj
  have hg : group ≠ [] := by
    obtain ⟨fs, hfs⟩ := Option.isSome_iff_exists.1 hj
    rw [hl] at hfs
    exact (exists_of_formats?_grouped hfs).1
  have hdrop : (j.operands.drop head.length).length = m * group.length := by
    rw [length_drop]
    omega
  have hlen : (i.absorb j).operands.length = head.length + (n + m) * group.length := by
    simp only [absorb, hl, headLength, length_append, hdrop, hn]
    rw [Nat.add_mul, Nat.add_assoc]
  have hfs : (i.absorb j).opcode.layout.formats? (i.absorb j).operands.length =
      some (head ++ (List.replicate (n + m) group).flatten) := by
    rw [hlen, absorb_opcode, hop, hl]
    exact formats?_grouped hg _
  refine ⟨by rw [hfs]; rfl, ?_⟩
  have hsplit := replicate_add (a := group.map (·.inDomain j.domain)) n m
  rw [hfi, hfj, formats, hfs]
  simp only [absorb_domain, hdom, Option.getD_some, map_append, map_flatten,
    map_replicate, hsplit, flatten_append, append_assoc]
  rw [drop_left' (by simp)]

theorem WellFormed.absorb (hi : i.WellFormed) (hj : j.WellFormed) (hk : i.mergeKey = j.mergeKey) :
    (i.absorb j).WellFormed := by
  cases hl : j.opcode.layout with
  | fixed fs => rwa [absorb_eq_self hl hj.count]
  | grouped head group =>
    obtain ⟨hcount, hformats⟩ := formats_absorb hl hi.count hj.count hk
    refine ⟨hi.form, hi.size_pos, hi.size_le, hi.size_scalar, hcount, ?_⟩
    rw [hformats]
    simp only [Instruction.absorb, hl, headLength]
    exact rel_append hi.fits (forall₂_drop _ hj.fits)

theorem Built.wellFormed (h : i.Built) : i.WellFormed := by
  induction h with
  | make h => exact wellFormed_of_make h
  | absorb _ _ hk hi hj => exact hi.absorb hj hk

end Instruction

end SecureTape
