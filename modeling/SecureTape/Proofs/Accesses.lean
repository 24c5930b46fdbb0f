import SecureTape.Proofs.WellFormed

/-!
# Accesses of instructions

Main statements:
1. `owns_of_make`: construction accepts only registers of the file.
2. `mem_accesses_absorb`: an instruction that absorbs another accesses what the two accessed.
-/

namespace SecureTape

open List

variable {j : Instruction}

section Forall₂

variable {α β : Type} {R : α → β → Prop} {xs : List α} {ys : List β}

theorem getElem?_of_forall₂ (h : Forall₂ R xs ys) (k : Nat) :
    (xs[k]? = none ∧ ys[k]? = none) ∨ ∃ x y, xs[k]? = some x ∧ ys[k]? = some y ∧ R x y := by
  induction h generalizing k with
  | nil => exact .inl ⟨rfl, rfl⟩
  | cons hxy _ ih =>
    cases k with
    | zero => exact .inr ⟨_, _, rfl, rfl, hxy⟩
    | succ k => exact ih k

theorem exists_left_of_forall₂ (h : Forall₂ R xs ys) {y : β} (hy : y ∈ ys) :
    ∃ x ∈ xs, R x y := by
  obtain ⟨k, hk⟩ := mem_iff_getElem?.mp hy
  rcases getElem?_of_forall₂ h k with ⟨-, hnone⟩ | ⟨x, y', hx, hy', hxy⟩
  · cases hnone.symm.trans hk
  · cases hy'.symm.trans hk
    exact ⟨x, mem_of_getElem? hx, hxy⟩

theorem exists_right_of_forall₂ (h : Forall₂ R xs ys) {x : α} (hx : x ∈ xs) :
    ∃ y ∈ ys, R x y := by
  obtain ⟨y, hy, hxy⟩ := exists_left_of_forall₂ (Forall₂.flip (R := flip R) h) hx
  exact ⟨y, hy, hxy⟩

end Forall₂

namespace Instruction

/-! ## Accesses by position -/

variable {i : Instruction} {r : Reg} {a : Access} {opcode : Opcode} {size : Nat}
  {regs : RegisterFile} {head group : List OperandFormat}

theorem mem_accesses_iff :
    (r, a) ∈ i.accesses ↔ ∃ position f,
      (i.formats.zip i.operands)[position]? = some (f, .reg r) ∧
        i.accessAt position f = some a := by
  simp only [accesses, mem_filterMap, mem_mapIdx, id]
  constructor
  · rintro ⟨_, ⟨position, hlt, rfl⟩, h⟩
    split at h
    · rename_i q b ho ha
      simp only [Option.some.injEq, Prod.mk.injEq] at h
      obtain ⟨rfl, rfl⟩ := h
      refine ⟨position, _, ?_, ha⟩
      rw [getElem?_eq_getElem hlt, ← ho]
    · cases h
  · rintro ⟨position, f, hget, ha⟩
    obtain ⟨hlt, hget⟩ := List.getElem?_eq_some_iff.1 hget
    refine ⟨_, ⟨position, hlt, rfl⟩, ?_⟩
    rw [hget]
    simp [ha]

theorem accessAt_eq_access? (h : i.opcode ≠ .callTape) (position : Nat) (f : OperandFormat) :
    i.accessAt position f = f.access? := by
  cases f <;> simp [accessAt, OperandFormat.access?, h]

theorem mem_accesses_iff_of_ne (h : i.opcode ≠ .callTape) :
    (r, a) ∈ i.accesses ↔
      ∃ f, (f, Operand.reg r) ∈ i.formats.zip i.operands ∧ f.access? = some a := by
  rw [mem_accesses_iff]
  constructor
  · rintro ⟨position, f, hget, ha⟩
    rw [accessAt_eq_access? h] at ha
    exact ⟨f, mem_of_getElem? hget, ha⟩
  · rintro ⟨f, hmem, ha⟩
    obtain ⟨position, hget⟩ := mem_iff_getElem?.mp hmem
    exact ⟨position, f, hget, (accessAt_eq_access? h position f).trans ha⟩

theorem mem_reads_iff : r ∈ i.reads ↔ ∃ a, (r, a) ∈ i.accesses ∧ a.reads := by
  simp [reads]

theorem mem_writes_iff : r ∈ i.writes ↔ ∃ a, (r, a) ∈ i.accesses ∧ a.writes := by
  simp [writes]

/-! ## Registers of the file -/

theorem owns_of_checkOperand {position : Nat} {f : OperandFormat} (hf : f.isRegister)
    (h : checkOperand opcode size regs position f (.reg r) = .ok ()) : regs.owns r := by
  have howner (h : checkOwner regs r = .ok ()) : regs.owns r = true := by
    unfold checkOwner at h
    split at h
    · assumption
    · cases h
  cases f <;> simp only [checkOperand] at h <;> try cases hf
  case reg cls access =>
    apply howner
    cases hc : checkOwner regs r with
    | ok => rfl
    | error e =>
      rw [hc] at h
      cases h
  case anyReg access => exact howner h

theorem checkOperand_of_mem_zip :
    ∀ {position : Nat} {fs : List OperandFormat} {os : List Operand} {f : OperandFormat}
      {o : Operand}, checkOperands opcode size regs position fs os = .ok () → (f, o) ∈ fs.zip os →
      ∃ position, checkOperand opcode size regs position f o = .ok ()
  | _, [], _, _, _, _, hmem => by simp at hmem
  | _, _ :: _, [], _, _, _, hmem => by simp at hmem
  | position, f :: fs, o :: os, _, _, h, hmem => by
    simp only [checkOperands, bind, Except.bind] at h
    split at h
    · cases h
    · rename_i hc
      rcases mem_cons.mp hmem with heq | hmem
      · cases heq
        exact ⟨position, hc⟩
      · exact checkOperand_of_mem_zip h hmem

theorem owns_of_make {domain : FieldDomain} {operands : List Operand}
    (h : Instruction.make opcode domain size operands regs = .ok i) (hr : (r, a) ∈ i.accesses) :
    regs.owns r := by
  obtain ⟨-, -, fs, hfs, hcheck, rfl⟩ := of_make_eq_ok h
  obtain ⟨position, f, hget, ha⟩ := mem_accesses_iff.1 hr
  have hmem := mem_of_getElem? hget
  simp only [formats, hfs, Option.getD_some] at hmem
  obtain ⟨_, hc⟩ := checkOperand_of_mem_zip hcheck hmem
  refine owns_of_checkOperand ?_ hc
  cases f <;> first | rfl | cases ha

/-! ## Absorbing -/

theorem opcode_of_communicates (h : i.communicates) :
    i.opcode = .reveal ∨ i.opcode = .muls ∨ i.opcode = .rawInput := by
  have hall : ∀ op : Opcode, op.has .communicates = true →
      op = .reveal ∨ op = .muls ∨ op = .rawInput := by
    intro op
    cases op <;> decide
  exact hall i.opcode h

theorem layout_of_communicates (h : i.communicates) :
    i.opcode ≠ .callTape ∧
      ∃ head group, i.opcode.layout = .grouped head group ∧ 0 < group.length ∧
        ∀ f ∈ head, f.access? = none := by
  rcases opcode_of_communicates h with hop | hop | hop <;> rw [hop]
  · exact ⟨by decide, _, _, rfl, by decide, by decide⟩
  · exact ⟨by decide, _, _, rfl, by decide, by decide⟩
  · exact ⟨by decide, _, _, rfl, by decide, by decide⟩

theorem HasLayout.length_drop_head (hi : i.HasLayout) (hl : i.opcode.layout = .grouped head group) :
    ∃ n, (i.operands.drop head.length).length = n * group.length ∧
      i.formats = head.map (·.inDomain i.domain) ++
        (List.replicate n (group.map (·.inDomain i.domain))).flatten := by
  obtain ⟨n, hn, hf⟩ := formats_grouped hl hi
  refine ⟨n, ?_, hf⟩
  rw [length_drop]
  omega

theorem HasLayout.length_head (hi : i.HasLayout) (hl : i.opcode.layout = .grouped head group) :
    i.head.length = head.length := by
  obtain ⟨n, hn, -⟩ := formats_grouped hl hi
  rw [Instruction.head, hl, OperandLayout.headLength, length_take]
  omega

theorem access?_inDomain (f : OperandFormat) (d : FieldDomain) :
    (f.inDomain d).access? = f.access? := by
  cases f <;> rfl

theorem mem_accesses_iff_of_communicates (hi : i.HasLayout) (hc : i.communicates)
    (hl : i.opcode.layout = .grouped head group) :
    (r, a) ∈ i.accesses ↔ ∃ f, (f, Operand.reg r) ∈
      (i.formats.drop head.length).zip (i.operands.drop head.length) ∧ f.access? = some a := by
  obtain ⟨hcall, head', group', hl', hg, hhead⟩ := layout_of_communicates hc
  obtain ⟨rfl, rfl⟩ : head' = head ∧ group' = group := by
    rw [hl] at hl'
    cases hl'
    exact ⟨rfl, rfl⟩
  obtain ⟨n, hn, hf⟩ := hi.length_drop_head hl
  have hlen := hi.length_head hl
  have hsplit : i.operands = i.head ++ i.operands.drop head'.length := by
    rw [Instruction.head, hl, OperandLayout.headLength, take_append_drop]
  rw [mem_accesses_iff_of_ne hcall, hf, drop_left' (by simp)]
  refine exists_congr fun f => and_congr_left fun ha => ?_
  conv_lhs => rw [hsplit, zip_append (by simp [hlen]), mem_append]
  refine or_iff_right fun hmem => ?_
  -- the formats of the head access nothing
  obtain ⟨f', hf', rfl⟩ := mem_map.1 (of_mem_zip hmem).1
  rw [access?_inDomain, hhead f' hf'] at ha
  cases ha

theorem HasLayout.absorb (hi : i.HasLayout) (hj : j.HasLayout) (hc : i.communicates)
    (hk : i.mergeKey = j.mergeKey) : (i.absorb j).HasLayout := by
  obtain ⟨-, head, group, hl, -, -⟩ := layout_of_communicates hc
  have hop : i.opcode = j.opcode := congrArg MergeKey.opcode hk
  exact (formats_absorb (by rw [← hop, hl]) hi hj hk).1

theorem mem_accesses_absorb (hi : i.HasLayout) (hj : j.HasLayout) (hc : i.communicates)
    (hk : i.mergeKey = j.mergeKey) :
    (r, a) ∈ (i.absorb j).accesses ↔ (r, a) ∈ i.accesses ∨ (r, a) ∈ j.accesses := by
  obtain ⟨-, head, group, hl, -, -⟩ := layout_of_communicates hc
  have hop : j.opcode = i.opcode := (congrArg MergeKey.opcode hk).symm
  have hlj : j.opcode.layout = .grouped head group := by rw [hop, hl]
  have hcj : j.communicates = true := by
    rw [communicates, has, hop]
    exact hc
  obtain ⟨-, hformats⟩ := formats_absorb hlj hi hj hk
  obtain ⟨n, hn, -⟩ := formats_grouped hl hi
  have hlen : i.formats.length = i.operands.length := hi.length_formats
  have hzip : ((i.absorb j).formats.drop head.length).zip
      ((i.absorb j).operands.drop head.length) =
        (i.formats.drop head.length).zip (i.operands.drop head.length) ++
          (j.formats.drop head.length).zip (j.operands.drop head.length) := by
    rw [hformats, show (i.absorb j).operands = i.operands ++ j.operands.drop head.length by
      simp only [absorb, hlj, OperandLayout.headLength]]
    rw [drop_append_of_le_length (by omega), drop_append_of_le_length (by omega),
      zip_append (by simp [hlen])]
  rw [mem_accesses_iff_of_communicates (hi.absorb hj hc hk) hc hl, hzip,
    mem_accesses_iff_of_communicates hi hc hl, mem_accesses_iff_of_communicates hj hcj hlj]
  simp only [mem_append, or_and_right, exists_or]

end Instruction

end SecureTape
