import SecureTape.Proofs.Codec
import SecureTape.Proofs.Reachable

/-!
# Finished tapes

Main statement: `BuildM.finish_decodes`, the bytecode of every tape of a finished program is read
back in full, and stays inside the physical registers of the tape.

1. `within_assignRegisters`: once the registers of a tape are assigned, all registers of typed code
   end below the number of physical registers.
2. `Instruction.wrapped`: what the bytes of a typed instruction can hold of it. Numbers that do not
   fit their field lose bits, and nothing else is lost.
3. `Tape.Edit.contained`: what is known of allocated and of finished tapes is kept by every edit.
-/

open SecureTape.Action

namespace SecureTape

open List

open RegisterFile Program

/-! ## Physical registers -/

variable {i : Instruction} {cls : RegisterClass} {a : Access} {regs : RegisterFile}
  {options : Options} {usage : PerClass Nat} {offset size : Nat} {id : TapeId} {p q : Program}

/-- The registers of the instruction whose class its form fixes end below `usage`. -/
def Instruction.Within (physical : Reg → Nat) (usage : PerClass Nat) (i : Instruction) : Prop :=
  ∀ cls a r, (.reg cls a, .reg r) ∈ i.formats.zip i.operands → physical r + i.size ≤ usage.get cls

variable {r : Reg}

theorem Instruction.mem_accesses_of_reg (h : (.reg cls a, .reg r) ∈ i.formats.zip i.operands) :
    (r, a) ∈ i.accesses := by
  obtain ⟨position, hget⟩ := mem_iff_getElem?.mp h
  exact mem_accesses_iff.2 ⟨position, _, hget, rfl⟩

theorem Instruction.Typed.of_reg (h : i.Typed regs)
    (hmem : (.reg cls a, .reg r) ∈ i.formats.zip i.operands) :
    regs.owns r ∧ regs.classOf r = cls ∧ regs.sizeOf r = i.size := by
  cases (forall₂_iff_zip.1 h.operands).2 hmem with
  | reg howns hcls hsize => exact ⟨howns, hcls, hsize⟩

theorem RegisterFile.Valid.physical_add_le {g : RegisterFile} (hg : g.Valid)
    (hr : g.owns r) {n : Nat}
    (h : (g.data (g.baseOf r)).slot.getD (g.data (g.baseOf r)).index +
      (g.data (g.baseOf r)).size ≤ n) : g.physical r + g.sizeOf r ≤ n := by
  have hfit := hg.resolve_add_size_le (owns_iff.1 hr).2
  unfold RegisterFile.physical
  simp only []
  show (g.data (g.baseOf r)).slot.getD (g.data (g.baseOf r)).index + (g.resolve r).2 +
    g.sizeOf r ≤ n
  omega

theorem within_assignRegisters {blocks : Array Block} (hregs : regs.Valid)
    (hblocks : ∀ id, Allocator.OnFile regs (blocks.getD id default))
    (h : (assignRegisters options regs blocks).1 = .ok usage) :
    (∀ cls, usage.get cls ≤ options.registerLimit) ∧
      ∀ b ∈ blocks, ∀ i ∈ b.instructions, i.Typed regs →
        i.Within (assignRegisters options regs blocks).2.physical usage := by
  have hshape := sameShape_assignRegisters options regs blocks
  have hvalid := hshape.valid hregs
  have hof {i : Instruction} (hi : i.Typed regs) {cls : RegisterClass} {a : Access} {r : Reg}
      (hmem : (.reg cls a, .reg r) ∈ i.formats.zip i.operands) :=
    (hi.keeps hshape.keeps).of_reg hmem
  generalize hg : (assignRegisters options regs blocks).2 = g at *
  have hrun : assignRegisters options regs blocks = (.ok usage, g) := Prod.ext h hg
  unfold assignRegisters at hrun
  split at hrun
  · obtain ⟨hlimit, hslots⟩ := allocateRegisters_spec hregs hblocks hrun
    refine ⟨hlimit, ?_⟩
    intro b hb i hi htyped cls a r hmem
    obtain ⟨howns, hcls, hsize⟩ := hof htyped hmem
    obtain ⟨s, hs, hle⟩ := hslots b hb i hi (r, a) (Instruction.mem_accesses_of_reg hmem)
    rw [hvalid.cls_baseOf (owns_iff.1 howns).2, hcls] at hle
    rw [← hsize]
    refine hvalid.physical_add_le howns ?_
    rw [hs]
    exact hle
  · obtain ⟨rfl, rfl, hlimit⟩ := keepVirtual_spec hrun
    refine ⟨hlimit, ?_⟩
    intro b hb i hi htyped cls a r hmem
    obtain ⟨howns, hcls, hsize⟩ := hof htyped hmem
    have hlt := (owns_iff.1 howns).2
    have hle := hvalid.base (hvalid.baseOf_lt hlt) (hvalid.view_baseOf hlt)
    rw [hvalid.cls_baseOf hlt, hcls] at hle
    rw [← hsize]
    refine hvalid.physical_add_le howns ?_
    rw [data_clearSlots] at hle ⊢
    exact hle

/-! ## The bytes of typed code -/

theorem bigEndian_mod (n value : Nat) : bigEndian n (value % 256 ^ n) = bigEndian n value := by
  induction n generalizing value with
  | zero => rfl
  | succ n ih =>
    have hdiv : value % 256 ^ (n + 1) / 256 = value / 256 % 256 ^ n := by
      rw [Nat.pow_succ', Nat.mod_mul_right_div_self]
    have hmod : value % 256 ^ (n + 1) % 256 = value % 256 :=
      Nat.mod_mod_of_dvd _ (Dvd.intro_left (256 ^ n) (Nat.pow_succ ..).symm)
    have hbyte : UInt8.ofNat (value % 256 ^ (n + 1)) = UInt8.ofNat value := by
      apply UInt8.toNat_inj.1
      rw [UInt8.toNat_ofNat', UInt8.toNat_ofNat']
      exact hmod
    rw [bigEndian, bigEndian, hdiv, ih, hbyte]

/-- A number as a signed one of so many bits. -/
def wrap (bits : Nat) (value : Int) : Int := toSigned bits (toUnsigned bits value)

theorem wrap_bounds (bits : Nat) (hb : 0 < bits) (value : Int) :
    -(2 ^ (bits - 1) : Nat) ≤ wrap bits value ∧ wrap bits value < (2 ^ (bits - 1) : Nat) := by
  have hlt := toUnsigned_lt bits value
  have hpow : 2 ^ bits = 2 * 2 ^ (bits - 1) := (mul_pow_sub_one hb.ne' 2).symm
  unfold wrap toSigned
  simp only [Nat.pow_eq]
  split <;> omega

theorem toUnsigned_wrap {bits : Nat} (hb : 0 < bits) (value : Int) :
    toUnsigned bits (wrap bits value) = toUnsigned bits value :=
  toUnsigned_toSigned hb (toUnsigned_lt bits value)

theorem exists_of_mem_zipWith {α β γ : Type} {f : α → β → γ} {as : List α} {bs : List β} {c : γ}
    (h : c ∈ List.zipWith f as bs) : ∃ a b, (a, b) ∈ as.zip bs ∧ f a b = c := by
  rw [← map_uncurry_zip_eq_zipWith] at h
  obtain ⟨⟨a, b⟩, hmem, heq⟩ := mem_map.1 h
  exact ⟨a, b, hmem, heq⟩

namespace Instruction

/-- The operand with numbers as their field can hold them. -/
def wrapOperand : OperandFormat → Operand → Operand
  | .long, .number value => .number (wrap 64 value)
  | _, .number value => .number (wrap 32 value)
  | _, other => other

def wrapped (i : Instruction) : Instruction :=
  { i with operands := List.zipWith wrapOperand i.formats i.operands }

theorem HasLayout.length_wrapped (h : i.HasLayout) :
    i.wrapped.operands.length = i.operands.length := by
  rw [wrapped, length_zipWith, h.length_formats, Nat.min_self]

theorem HasLayout.formats_wrapped (h : i.HasLayout) : i.wrapped.formats = i.formats := by
  unfold formats
  rw [h.length_wrapped]
  rfl

theorem operandFits_wrap {f : OperandFormat} {o : Operand} (h : OperandTyped regs size f o) :
    OperandFits f (wrapOperand f o) := by
  have hwrap (value : Int) : fitsSigned32 (wrap 32 value) := by
    obtain ⟨hlo, hhi⟩ := wrap_bounds 32 (by decide) value
    simp only [fitsSigned32, Bool.and_eq_true, decide_eq_true_eq]
    exact ⟨hlo, hhi⟩
  cases h with
  | reg howns hcls hsize => exact .reg ..
  | anyReg howns => exact .anyReg ..
  | callee r => exact .callee r
  | imm value => exact .imm (hwrap value)
  | int value => exact .int (hwrap value)
  | long value => exact .long _
  | player value => exact .player (hwrap value)
  | text hp hs => exact .text hp hs
  | longText hp hs => exact .longText hp hs

theorem forall₂_operandFits_wrap {fs : List OperandFormat} {os : List Operand}
    (h : Forall₂ (OperandTyped regs size) fs os) :
    Forall₂ OperandFits fs (List.zipWith wrapOperand fs os) := by
  induction h with
  | nil => exact .nil
  | cons ho _ ih => exact .cons (operandFits_wrap ho) ih

theorem Typed.wellFormed_wrapped (h : i.Typed regs) : i.wrapped.WellFormed := by
  refine ⟨h.form, h.size_pos, h.size_le, h.size_scalar, ?_, ?_⟩
  · rw [h.layout.length_wrapped]
    exact h.layout
  · rw [h.layout.formats_wrapped]
    exact forall₂_operandFits_wrap h.operands

theorem Typed.encodable_wrapped (h : i.Typed regs) (hcount : i.operands.length < 2 ^ 32) :
    Bytecode.Encodable i.wrapped := by
  refine ⟨?_, h.size_le, ?_⟩
  · rw [h.layout.length_wrapped]
    exact hcount
  · intro value hvalue
    obtain ⟨f, o, -, heq⟩ := exists_of_mem_zipWith hvalue
    have hbound (bits : Nat) (hb : 0 < bits) (hle : bits ≤ 64) (v : Int) :
        Wire.FitsSigned64 (wrap bits v) := by
      obtain ⟨hlo, hhi⟩ := wrap_bounds _ hb v
      have hpow : 2 ^ (bits - 1) ≤ 2 ^ 63 := Nat.pow_le_pow_right (by decide) (by omega)
      exact ⟨by omega, by omega⟩
    cases o with
    | number v =>
      cases f <;> cases heq <;> first
        | exact hbound 64 (by decide) (by decide) v
        | exact hbound 32 (by decide) (by decide) v
    | reg | callee | text => cases f <;> cases heq

theorem operandBytes_wrap (resolve : Reg → Nat) (f : OperandFormat) (o : Operand) :
    operandBytes (fun r => resolve r % 2 ^ 32) f (wrapOperand f o) = operandBytes resolve f o := by
  have hword (value : Nat) : Wire.word32 (value % 2 ^ 32) = Wire.word32 value := bigEndian_mod 4 value
  have hsigned (value : Int) : Wire.signed32 (wrap 32 value) = Wire.signed32 value := by
    rw [Wire.signed32, toUnsigned_wrap (by decide), Wire.signed32]
  have hlong (value : Int) : Wire.signed64 (wrap 64 value) = Wire.signed64 value := by
    rw [Wire.signed64, toUnsigned_wrap (by decide), Wire.signed64]
  cases o with
  | reg | callee => cases f <;> exact hword _
  | number value => cases f <;> first | exact hlong value | exact hsigned value
  | text s => cases f <;> rfl

theorem HasLayout.encode_wrapped (h : i.HasLayout) (resolve : Reg → Nat) :
    i.wrapped.encode (fun r => resolve r % 2 ^ 32) = i.encode resolve := by
  have hzip : (i.formats.zip i.wrapped.operands).flatMap
      (fun x => operandBytes (fun r => resolve r % 2 ^ 32) x.1 x.2) =
        (i.formats.zip i.operands).flatMap fun x => operandBytes resolve x.1 x.2 := by
    show (i.formats.zip (List.zipWith wrapOperand i.formats i.operands)).flatMap _ = _
    generalize i.formats = fs, i.operands = os
    induction fs generalizing os with
    | nil => rfl
    | cons f fs ih =>
      cases os with
      | nil => rfl
      | cons o os =>
        simp only [zipWith_cons_cons, zip_cons_cons, flatMap_cons, ih]
        rw [operandBytes_wrap]
  unfold encode
  rw [h.formats_wrapped, h.length_wrapped]
  congr 1

theorem four_mul_length_le_encode (h : i.HasLayout) (resolve : Reg → Nat) :
    4 * i.operands.length ≤ (i.encode resolve).length := by
  have hle := @Bytecode.four_mul_le_length_operandsBytes resolve _ _ h.length_formats
  show 4 * i.operands.length ≤ (_ ++ Bytecode.operandsBytes resolve i.formats i.operands).length
  rw [length_append]
  omega

end Instruction

namespace Bytecode

variable {resolve : Reg → Nat}

theorem length_decodedFrom (is : List Instruction) (offset : Nat) :
    (decodedFrom resolve offset is).length = is.length := by
  induction is generalizing offset with
  | nil => rfl
  | cons i is ih => exact congrArg Nat.succ (ih _)

variable {is : List Instruction}

theorem exists_of_mem_decodedFrom {inst : DecodedInstruction}
    (h : inst ∈ decodedFrom resolve offset is) :
    ∃ i ∈ is, ∃ offset, inst = decodedAt resolve offset i := by
  induction is generalizing offset with
  | nil => cases h
  | cons i is ih =>
    rcases mem_cons.1 h with rfl | h
    · exact ⟨i, .head _, offset, rfl⟩
    · obtain ⟨j, hj, hdecoded⟩ := ih h
      exact ⟨j, .tail _ hj, hdecoded⟩

theorem exists_of_mem_decodedAt {index : Nat}
    (h : .reg cls index ∈ (decodedAt (fun r => resolve r % 2 ^ 32) offset i.wrapped).operands)
    (hlayout : i.HasLayout) :
    ∃ a r, (.reg cls a, .reg r) ∈ i.formats.zip i.operands ∧ index ≤ resolve r := by
  have hoperands : (decodedAt (fun r => resolve r % 2 ^ 32) offset i.wrapped).operands =
      List.zipWith (fun f o => decodedOperand (fun r => resolve r % 2 ^ 32) f
        (Instruction.wrapOperand f o)) i.formats i.operands := by
    show List.zipWith _ i.wrapped.formats (List.zipWith _ i.formats i.operands) = _
    rw [hlayout.formats_wrapped, zipWith_zipWith_right, zipWith3_same_left]
  rw [hoperands] at h
  obtain ⟨f, o, hmem, heq⟩ := exists_of_mem_zipWith h
  cases f with
  | reg cls' a =>
    cases o <;> cases heq
    exact ⟨a, _, hmem, Nat.mod_le _ _⟩
  | _ => cases o <;> cases heq

theorem decode_eq_of_typed (htyped : ∀ i ∈ is, i.Typed regs)
    (hlength : (is.flatMap (·.encode resolve)).length < 2 ^ 34) :
    decode (is.flatMap (·.encode resolve)) =
      .ok (decodedFrom (fun r => resolve r % 2 ^ 32) 0 (is.map (·.wrapped))) := by
  have hcount {i : Instruction} (hi : i ∈ is) : i.operands.length < 2 ^ 32 := by
    have hle := Instruction.four_mul_length_le_encode (htyped i hi).layout resolve
    obtain ⟨before, after, rfl⟩ := append_of_mem hi
    rw [flatMap_append, flatMap_cons, length_append, length_append] at hlength
    omega
  have hbytes : is.flatMap (·.encode resolve) =
      (is.map (·.wrapped)).flatMap (·.encode fun r => resolve r % 2 ^ 32) := by
    rw [flatMap_map]
    exact flatMap_congr fun i hi => ((htyped i hi).layout.encode_wrapped resolve).symm
  have hwf : ∀ i ∈ is.map (·.wrapped), i.WellFormed :=
    forall_mem_map.2 fun i hi => (htyped i hi).wellFormed_wrapped
  have henc : ∀ i ∈ is.map (·.wrapped), Encodable i :=
    forall_mem_map.2 fun i hi => (htyped i hi).encodable_wrapped (hcount hi)
  rw [hbytes, decode, decodeFrom_encode (fun r => Nat.mod_lt _ (by decide)) hwf henc]

theorem decode_typed (htyped : ∀ i ∈ is, i.Typed regs) (hwithin : ∀ i ∈ is, i.Within resolve usage)
    (hlength : (is.flatMap (·.encode resolve)).length < 2 ^ 34) :
    ∃ insts, decode (is.flatMap (·.encode resolve)) = .ok insts ∧ insts.length = is.length ∧
      ∀ inst ∈ insts, ∀ cls index, .reg cls index ∈ inst.operands →
        index + inst.size ≤ usage.get cls := by
  refine ⟨_, decode_eq_of_typed htyped hlength, ?_, ?_⟩
  · rw [length_decodedFrom, length_map]
  · intro inst hinst cls index hreg
    obtain ⟨j, hj, offset, rfl⟩ := exists_of_mem_decodedFrom hinst
    obtain ⟨i, hi, rfl⟩ := mem_map.1 hj
    obtain ⟨a, r, hmem, hle⟩ := exists_of_mem_decodedAt hreg (htyped i hi).layout
    have hsize : (decodedAt (fun r => resolve r % 2 ^ 32) offset i.wrapped).size = i.size := by
      show (if i.opcode.isVector then i.size else 1) = i.size
      split
      · rfl
      · rename_i hscalar
        exact ((htyped i hi).size_scalar (Bool.not_eq_true _ ▸ hscalar)).symm
    have hbound := hwithin i hi cls a r hmem
    rw [hsize]
    omega

end Bytecode

/-! ## Allocated and finished tapes -/

/-- The bytecode is read back in full, if it is not too long for operand counts of 32 bits, and its
registers are below the number of physical registers, which is at most the limit. -/
structure FinishedTape.Contained (limit : Nat) (t : FinishedTape) : Prop where
  usage_le : ∀ cls, t.registerUsage.get cls ≤ limit
  decodes : t.bytecode.length < 2 ^ 34 →
    ∃ insts, Bytecode.decode t.bytecode = .ok insts ∧ insts.length = t.instructionCount ∧
      ∀ inst ∈ insts, ∀ cls index, .reg cls index ∈ inst.operands →
        index + inst.size ≤ t.registerUsage.get cls

namespace Tape

variable {calls : Prop} {t t' : Tape}

def code (t : Tape) : List Instruction := t.blocks.toList.flatMap Block.instructions

theorem mem_code : i ∈ t.code ↔ ∃ b ∈ t.blocks, .inst i ∈ b.ops := by
  simp only [code, mem_flatMap, Array.mem_toList_iff, Block.instructions, mem_filterMap]
  refine exists_congr fun b => and_congr_right fun _ => ?_
  constructor
  · rintro ⟨op, hop, hi⟩
    cases op <;> cases hi
    exact hop
  · exact fun h => ⟨_, h, rfl⟩

theorem Sound.typed (h : t.Sound) (hi : i ∈ t.code) : i.Typed t.regs := by
  obtain ⟨b, hb, hop⟩ := mem_code.1 hi
  obtain ⟨k, -, rfl⟩ := exists_block_of_mem hb
  exact ((h.block k).ops _ hop).typed i rfl

/-- An allocated tape is inside its physical registers, and so is the bytecode of a finished one. -/
structure Contained (limit : Nat) (t : Tape) : Prop where
  allocated : ∀ {usage requirements}, t.state = .allocated usage requirements →
    (∀ cls, usage.get cls ≤ limit) ∧ ∀ i ∈ t.code, i.Within t.regs.physical usage
  finished : ∀ {result}, t.state = .finished result → result.Contained limit

theorem TakesRegisters.contained (h : t.TakesRegisters) (limit : Nat) : t.Contained limit := by
  refine ⟨?_, ?_⟩
  · intro usage requirements hstate
    rcases h with h | h <;> rw [h] at hstate <;> cases hstate
  · intro result hstate
    rcases h with h | h <;> rw [h] at hstate <;> cases hstate

theorem Contained.of_eq {limit : Nat} (h : t.Contained limit) (hstate : t'.state = t.state)
    (hblocks : t'.blocks = t.blocks) (hregs : t'.regs = t.regs) : t'.Contained limit := by
  have hcode : t'.code = t.code := by rw [code, hblocks, code]
  refine ⟨?_, ?_⟩
  · rw [hstate, hcode, hregs]
    exact h.allocated
  · rw [hstate]
    exact h.finished

theorem within_withJumpOffset {physical : Reg → Nat} (h : i.Within physical usage) (offset : Int) :
    (i.withJumpOffset offset).Within physical usage := by
  intro cls a r hmem
  unfold Instruction.withJumpOffset at hmem ⊢
  split at hmem
  · rename_i position _
    have hformats : Instruction.formats
        { i with operands := i.operands.set position (.number offset) } = i.formats := by
      simp only [Instruction.formats, length_set]
    rw [hformats] at hmem
    obtain ⟨k, hget⟩ := mem_iff_getElem?.mp hmem
    obtain ⟨hf, ho⟩ := getElem?_zip_eq_some.1 hget
    rw [getElem?_set] at ho
    split at ho
    · split at ho <;> cases ho
    · exact h cls a r (mem_of_getElem? (getElem?_zip_eq_some.2 ⟨hf, ho⟩))
  · exact h cls a r hmem

theorem Sound.onFile (h : t.Sound) (id : BlockId) :
    Allocator.OnFile t.regs (t.blocks.getD id default) := by
  have hb := h.block id
  refine ⟨?_, hb.inherited⟩
  intro i hi x hx
  obtain ⟨op, hop, hinst⟩ := mem_filterMap.1 hi
  refine (hb.ops op hop).owns x.1 ?_
  cases op <;> cases hinst
  exact mem_map_of_mem hx

theorem Sound.contained_allocate (ht : t.Sound) {requirements : Tally}
    (husage : (assignRegisters options t.regs t.blocks).1 = .ok usage) :
    Contained options.registerLimit { t with
      regs := (assignRegisters options t.regs t.blocks).2
      blocks := (Layout.resolve t.blocks.toList).2.toArray
      state := .allocated usage requirements } := by
  obtain ⟨hlimit, hwithin⟩ := within_assignRegisters ht.valid ht.onFile husage
  refine ⟨?_, nofun⟩
  rintro _ _ ⟨⟩
  refine ⟨hlimit, ?_⟩
  intro i' hi'
  obtain ⟨b', hb', hop'⟩ := mem_code.1 hi'
  obtain ⟨b, hb, hplaced⟩ :=
    exists_left_of_forall₂ (Layout.placed_resolve t.blocks.toList) (mem_toArray.1 hb')
  obtain ⟨op, hop, huse⟩ := exists_left_of_forall₂ hplaced.ops hop'
  have hbefore {i : Instruction} (hi : .inst i ∈ b.ops) :
      i.Within (assignRegisters options t.regs t.blocks).2.physical usage := by
    have hb' := Array.mem_toList_iff.1 hb
    exact hwithin b hb' i (mem_filterMap.2 ⟨_, hi, rfl⟩) (ht.typed (mem_code.2 ⟨b, hb', hi⟩))
  rcases huse with rfl | ⟨i, offset, rfl, heq⟩
  · exact hbefore hop
  · cases heq
    exact within_withJumpOffset (hbefore hop) offset

/-- An edit keeps allocated code, and bytecode, inside the physical registers. -/
theorem Edit.contained (h : Edit options calls t t') (ht : t.Sound)
    (hc : t.Contained options.registerLimit) : t'.Contained options.registerLimit := by
  have htakes (htakes : t.TakesRegisters) (hstate : t'.state = t.state) :
      t'.Contained options.registerLimit := by
    refine TakesRegisters.contained ?_ _
    rwa [TakesRegisters, hstate]
  have hbuilding (hb : t.isBuilding = true) (hstate : t'.state = t.state) :
      t'.Contained options.registerLimit := htakes (.inl (of_decide_eq_true hb)) hstate
  cases h with
  | note h => exact hc.of_eq h.state h.blocks h.regs
  | registers hstate hg => exact htakes hstate rfl
  | push hb hopen hop hcall => exact hbuilding hb rfl
  | prologue hi => exact hc.of_eq rfl rfl rfl
  | startBlock hb | openLoop hb | endLoop hb | beginIf hb | beginElse hb | endIf hb
  | beginFunction hb | endFunction hb => exact hbuilding hb (state_startBlock ..)
  | close hb hscopes => exact TakesRegisters.contained (.inr rfl) _
  | setOps hstate | declare hstate | place hstate => exact htakes (.inr hstate) rfl
  | allocate hstate his husage hplace => exact (ht.declare his).contained_allocate husage
  | @encode usage requirements result physical hstate hname hphysical hcode hcount husage hrequired =>
    obtain ⟨hlimit, hwithin⟩ := hc.allocated hstate
    refine ⟨nofun, ?_⟩
    rintro _ ⟨⟩
    have htyped (i : Instruction) (hi : i ∈ t.code) := ht.typed hi
    have hwithin' (i : Instruction) (hi : i ∈ t.code) : i.Within physical usage := by
      intro cls a r hmem
      rw [hphysical r ((htyped i hi).of_reg hmem).1]
      exact hwithin i hi cls a r hmem
    refine ⟨by rw [husage]; exact hlimit, ?_⟩
    rw [hcode, hcount, husage]
    exact Bytecode.decode_typed htyped hwithin'

theorem Edits.contained (h : Edits options calls t t') (ht : t.Sound)
    (hc : t.Contained options.registerLimit) : t'.Contained options.registerLimit := by
  induction h with
  | refl => exact hc
  | tail hs h ih => exact h.contained (Edits.sound hs ht) ih

theorem contained_new (id : TapeId) (name : String) (kind : TapeKind) (singular : Bool)
    (root : NodeId) (limit : Nat) : (Tape.new id name kind singular root).Contained limit :=
  TakesRegisters.contained (.inl rfl) limit

end Tape

namespace Program

theorem Evolves.contained (h : Evolves p q) (hp : p.Coherent)
    (hc : ∀ {id}, id < p.tapes.size → (p.tapeAt id).Contained p.options.registerLimit)
    (hid : id < q.tapes.size) : (q.tapeAt id).Contained q.options.registerLimit := by
  rw [h.options]
  by_cases hold : id < p.tapes.size
  · exact (h.tape hold).contained (hp.sound hold) (hc hold)
  · obtain ⟨name, kind, singular, root, hborn⟩ := h.born (not_lt.1 hold) hid
    exact hborn.contained (.new ..) (Tape.contained_new ..)

theorem Reachable.contained (h : p.Reachable) (hid : id < p.tapes.size) :
    (p.tapeAt id).Contained p.options.registerLimit := by
  obtain ⟨name, options, start, α, act, hnew, hact, rfl⟩ := h
  have hstart := coherent_of_new hnew
  refine (hact.lawful start hstart).ends.contained hstart ?_ hid
  intro id hid
  unfold Program.new at hnew
  split at hnew
  · cases hnew
  · cases hnew
    obtain rfl : id = mainTape := Nat.lt_one_iff.1 hid
    exact Tape.contained_new ..

end Program

namespace BuildM

theorem reachable_run {α : Type} {act : BuildM α} (hp : p.Reachable) (hact : act.Api) :
    (act.run p).2.Reachable := by
  obtain ⟨name, options, start, β, before, hnew, hbefore, rfl⟩ := hp
  refine ⟨name, options, start, α, attempt before >>= fun _ => act, hnew,
    .bind (.attempt hbefore) fun _ => hact, ?_⟩
  rfl

/-- What a finished program holds: the results of its tapes, and a schedule that lists them. -/
theorem of_run_finish {c : CompiledProgram} (h : finish.run p = (.ok c, q)) :
    c.schedule.tapes = c.tapes.map (fun t => ⟨t.name, t.instructionCount⟩) ∧
      Forall₂ (fun t r => t.state = .finished r) q.tapes.toList c.tapes := by
  have hfinished (ts : List Tape) {s s' : Program} {rs : List FinishedTape}
      (h : (ts.mapM finishedTape).run s = (.ok rs, s')) :
      s' = s ∧ Forall₂ (fun t r => t.state = .finished r) ts rs := by
    induction ts generalizing s rs with
    | nil =>
      cases h
      exact ⟨rfl, .nil⟩
    | cons t ts ih =>
      rw [mapM_cons] at h
      obtain ⟨r, s₁, hr, h⟩ := of_run_bind_ok h
      obtain ⟨rs', s₂, hrs, h⟩ := of_run_bind_ok h
      cases h
      unfold finishedTape at hr
      split at hr
      · rename_i result hstate
        cases hr
        obtain ⟨rfl, hrest⟩ := ih hrs
        exact ⟨rfl, .cons hstate hrest⟩
      · cases hr
  unfold finish at h
  obtain ⟨_, s₁, -, h⟩ := of_run_bind_ok h
  obtain ⟨_, s₂, -, h⟩ := of_run_bind_ok h
  obtain ⟨_, s₃, -, h⟩ := of_run_bind_ok h
  obtain ⟨_, s₄, -, h⟩ := of_run_bind_ok h
  obtain ⟨_, s₅, -, h⟩ := of_run_bind_ok h
  obtain ⟨_, s₆, -, h⟩ := of_run_bind_ok h
  obtain ⟨p', s₇, hget, h⟩ := of_run_bind_ok h
  obtain ⟨tapes, s₈, htapes, hc⟩ := of_run_bind_ok h
  cases hget
  cases hc
  obtain ⟨rfl, hall⟩ := hfinished _ htapes
  exact ⟨rfl, hall⟩

/-- The bytecode of every tape of a finished program is read back in full, with as many instructions
as the schedule lists, and stays inside the physical registers of the tape, which are at most as
many as the options allow. The counts of operands take 32 bits, so no tape has 16 GiB of code. -/
theorem finish_decodes {c : CompiledProgram} (hp : p.Reachable) (h : finish.run p = (.ok c, q))
    (hlength : ∀ t ∈ c.tapes, t.bytecode.length < 2 ^ 34) :
    c.tapes.length = q.tapes.size ∧
      c.schedule.tapes.map (·.length) = c.tapes.map (·.instructionCount) ∧
      ∀ t ∈ c.tapes, ∃ insts, Bytecode.decode t.bytecode = .ok insts ∧
        insts.length = t.instructionCount ∧
        (∀ inst ∈ insts, ∀ cls index, .reg cls index ∈ inst.operands →
          index + inst.size ≤ t.registerUsage.get cls) ∧
        ∀ cls, t.registerUsage.get cls ≤ p.options.registerLimit := by
  obtain ⟨hschedule, hall⟩ := of_run_finish h
  have hq : q.Reachable := by
    have hrun := reachable_run hp .finish
    rwa [h] at hrun
  have hoptions : q.options = p.options := by
    have hevolves := (lawful_finish p hp.coherent).ends
    rw [h] at hevolves
    exact hevolves.options
  refine ⟨?_, ?_, ?_⟩
  · rw [← Array.length_toList, hall.length_eq]
  · rw [hschedule, map_map]
    rfl
  · intro t ht
    obtain ⟨tape, htape, hstate⟩ := exists_left_of_forall₂ hall ht
    obtain ⟨id, hid, rfl⟩ := Array.mem_iff_getElem.1 (Array.mem_toList_iff.1 htape)
    have hcontained := hq.contained hid
    rw [tapeAt, Array.getD_eq_getD_getElem?, Array.getElem?_eq_getElem hid, Option.getD_some,
      hoptions] at hcontained
    obtain ⟨husage, hdecodes⟩ := hcontained.finished hstate
    obtain ⟨insts, hdecode, hcount, hregs⟩ := hdecodes (hlength t ht)
    exact ⟨insts, hdecode, hcount, hregs, husage⟩

/-- An element of a vector is loaded before a loop, and the whole vector is stored in it. -/
def loadThenStore : BuildM Unit := do
  let vector ← newVector .int 2
  let second ← view vector 1 1
  loadInt second 5
  openLoop (.finite 3) none
  storeMemory vector 0
  endLoop second

theorem api_loadThenStore : loadThenStore.Api :=
  .bind (.newVector ..) fun _ => .bind (.view ..) fun _ => .bind (.loadInt ..) fun _ =>
    .bind (.openLoop ..) fun _ => .bind (.storeMemory ..) fun _ => .endLoop _

theorem finish_decodes_loop : ∃ c q, finish.run (builtBy loadThenStore) = (.ok c, q) ∧
    c.tapes.map (·.instructionCount) = [3] ∧ c.tapes.length = q.tapes.size ∧
    c.schedule.tapes.map (·.length) = c.tapes.map (·.instructionCount) ∧
      ∀ t ∈ c.tapes, ∃ insts, Bytecode.decode t.bytecode = .ok insts ∧
        insts.length = t.instructionCount ∧
        (∀ inst ∈ insts, ∀ cls index, .reg cls index ∈ inst.operands →
          index + inst.size ≤ t.registerUsage.get cls) ∧
        ∀ cls, t.registerUsage.get cls ≤ (builtBy loadThenStore).options.registerLimit := by
  obtain ⟨c, q, hrun, hcount, hlength⟩ := exists_run_ok finish (builtBy loadThenStore) (fun c =>
    c.tapes.map (·.instructionCount) = [3] ∧ ∀ t ∈ c.tapes, t.bytecode.length < 2 ^ 34)
    (by decide +kernel)
  exact ⟨c, q, hrun, hcount, finish_decodes (reachable_builtBy api_loadThenStore) hrun hlength⟩

end BuildM

end SecureTape
