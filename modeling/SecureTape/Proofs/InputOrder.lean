import SecureTape.Proofs.Idempotence

/-!
# The order of private inputs

A player gives inputs in the order in which the instructions ask for them. Merging keeps this order
among the inputs that it takes together, which are those of one domain, vector size and depth; it
does not keep it between others. Main statements:
1. `numbersOf_eq_members`: the members of a unit are the operations of its depth and kind, in order.
2. `mergeOps_inputs_in_order`: the inputs of one depth and kind stay in order.
3. `mergeOps_reorders_inputs`: inputs of different sizes do not.
-/

namespace SecureTape

open MergeUnit List

namespace Instruction

/-- The inputs that an instruction takes: player, register and vector size. -/
def inputs (i : Instruction) : List (Int × Reg × Nat) :=
  if i.opcode = .rawInput then
    i.groups.filterMap fun
      | [.number player, .reg r] => some (player, r, i.size)
      | _ => none
  else []

theorem inputs_absorb {i j : Instruction} (hi : i.WellFormed) (hc : i.communicates)
    (hk : i.mergeKey = j.mergeKey) : (i.absorb j).inputs = i.inputs ++ j.inputs := by
  obtain ⟨hop, -, hsize⟩ := MergeKey.mk.inj hk.symm
  by_cases h : i.opcode = .rawInput
  · simp only [inputs, absorb_opcode, absorb_size, hop, hsize, h, if_true, groups_absorb hi hc hk,
      filterMap_append]
  · simp only [inputs, absorb_opcode, hop, h, if_false, append_nil]

end Instruction

/-! ## Units -/

/-- The numbers of the operations of one depth and kind, in order. -/
def numbersOf (regs : RegisterFile) (ops : List Op) (key : Nat × Batch) : List Nat :=
  (List.range ops.length).filter fun k => decide (keyOf ops (opDepths regs ops) k = some key)

variable {regs : RegisterFile} {ops : List Op} {is : List Instruction} {key : Nat × Batch}

theorem numbersOf_eq_members {u : MergeUnit} (hu : u ∈ opUnits regs ops) (hkey : u.key = some key) :
    numbersOf regs ops key = u.members := by
  have h := partition_opUnits regs ops
  refine List.Pairwise.eq_of_mem_iff (pairwise_lt_range.filter _) (h.sorted u hu) ?_
  intro k
  rw [numbersOf, mem_filter, mem_range, decide_eq_true_eq]
  constructor
  · rintro ⟨hk, hkk⟩
    obtain ⟨l, v, hv, hkv⟩ := h.exists_unit hk
    have hvkey : v.key = some key := (h.key v (List.mem_of_getElem? hv) k hkv).trans hkk
    obtain ⟨m, hm⟩ := List.mem_iff_getElem?.mp hu
    obtain ⟨hlt, rfl⟩ := List.getElem?_eq_some_iff.1 hm
    obtain ⟨hlt', rfl⟩ := List.getElem?_eq_some_iff.1 hv
    have hdistinct := List.pairwise_iff_getElem.1 h.distinct
    rcases lt_trichotomy l m with hlm | rfl | hlm
    · exact absurd (hvkey.trans hkey.symm) (hdistinct l m hlt' hlt hlm (by simp [hvkey]))
    · exact hkv
    · exact absurd (hkey.trans hvkey.symm) (hdistinct m l hlt hlt' hlm (by simp [hkey]))
  · exact fun hk => ⟨h.lt hu hk, (h.key u hu k hk).symm.trans hkey⟩

theorem numbersOf_eq_nil (h : ∀ u ∈ opUnits regs ops, u.key ≠ some key) :
    numbersOf regs ops key = [] := by
  refine filter_eq_nil_iff.2 fun k hk hkk => ?_
  have hpart := partition_opUnits regs ops
  obtain ⟨l, u, hu, hku⟩ := hpart.exists_unit (mem_range.1 hk)
  have hmem := mem_of_getElem? hu
  exact h u hmem ((hpart.key u hmem k hku).trans (of_decide_eq_true hkk))

/-! ## Inputs -/

/-- The inputs of a player that a list of instructions takes, in order. -/
def inputsOf (player : Int) (is : List Instruction) : List (Reg × Nat) :=
  ((is.flatMap Instruction.inputs).filter (·.1 = player)).map (·.2)

/-- The instructions of one depth, opcode, domain and vector size, in order. -/
def alikeAt (regs : RegisterFile) (depth : Nat) (kind : MergeKey) (is : List Instruction) :
    List Instruction :=
  (numbersOf regs (is.map Op.inst) (depth, .inst kind)).filterMap (is[·]?)

/-- The inputs of a player that are of one domain, vector size and depth stay in order; all do if
nothing is merged. -/
theorem mergeOps_inputs_in_order (regs : RegisterFile) (share : Bool) (hb : ∀ i ∈ is, i.Built) :
    ∃ out : List Instruction, (mergeOps regs share (is.map Op.inst)).1 = out.map Op.inst ∧
      (share = false → out = is) ∧ ∀ player depth kind,
        inputsOf player (alikeAt regs depth kind out) =
          inputsOf player (alikeAt regs depth kind is) := by
  cases share with
  | false => exact ⟨is, rfl, fun _ => rfl, fun _ _ _ => rfl⟩
  | true =>
    have hwf : ∀ i ∈ is, i.WellFormed := fun i hi => (hb i hi).wellFormed
    have hlayout : ∀ op ∈ is.map Op.inst, op.HasLayout :=
      forall_mem_map.2 fun i hi => (hwf i hi).hasLayout
    have ht : SameTemplates (is.map Op.inst) := by
      intro c d hc
      simp at hc
    obtain ⟨out, hout, hunits⟩ := exists_merged_units
      (Instruction.additive_of_wellFormed hwf Instruction.inputs_absorb) regs
    have hmerged : (mergeRounds regs (is.map Op.inst)).1 = out.map Op.inst := hout
    have hunitsOut := @opUnits_merged regs _ hlayout ht
    have hkeys {x : Nat} {u : MergeUnit} (hu : (emitted regs (is.map Op.inst))[x]? = some u) :=
      keyOf_merged hlayout ht hu
    have hlength := @length_mergeRounds regs _ hlayout ht
    rw [hmerged] at hunitsOut hkeys hlength
    refine ⟨out, hout, nofun, fun player depth kind => ?_⟩
    unfold inputsOf alikeAt
    congr 2
    by_cases hex : ∃ u ∈ opUnits regs (is.map Op.inst), u.key = some (depth, .inst kind)
    · obtain ⟨u, hu, hkey⟩ := hex
      obtain ⟨x, hx⟩ := mem_iff_getElem?.1 ((perm_emitted regs _).mem_iff.2 hu)
      obtain ⟨hnone, -⟩ | ⟨v, m, hv, hm, hgives⟩ := getElem?_of_forall₂ hunits x
      · cases hnone.symm.trans hx
      cases hx.symm.trans hv
      have hunit : (⟨some (depth, .inst kind), [x]⟩ : MergeUnit) ∈ opUnits regs (out.map Op.inst) := by
        rw [hunitsOut]
        refine List.mem_map.2 ⟨x, ?_, ?_⟩
        · simpa using (List.getElem?_eq_some_iff.1 hm).1
        · rw [hkeys hx, hkey]
      rw [numbersOf_eq_members hu hkey, ← hgives, numbersOf_eq_members hunit rfl]
      simp [hm]
    · rw [numbersOf_eq_nil fun u hu hkey => hex ⟨u, hu, hkey⟩, numbersOf_eq_nil]
      · rfl
      · intro v hv hkey
        rw [hunitsOut] at hv
        obtain ⟨x, hx, rfl⟩ := mem_map.1 hv
        rw [mem_range, hlength] at hx
        have hu := getElem?_eq_getElem hx
        refine hex ⟨_, (perm_emitted regs _).mem_iff.1 (mem_of_getElem? hu), ?_⟩
        exact (hkeys hu).symm.trans hkey

def threeSecrets : RegisterFile where
  tape := 0
  regs := #[{ cls := .secret, size := 1, index := 0 }, { cls := .secret, size := 2, index := 1 },
    { cls := .secret, size := 1, index := 3 }]

def threeInputs : List Instruction :=
  [⟨.rawInput, .base, 1, [.number 0, .reg ⟨0, 0⟩]⟩, ⟨.rawInput, .base, 2, [.number 0, .reg ⟨0, 1⟩]⟩,
    ⟨.rawInput, .base, 1, [.number 0, .reg ⟨0, 2⟩]⟩]

theorem built_threeInputs : ∀ i ∈ threeInputs, i.Built := by
  have hmake : ∀ i ∈ threeInputs,
      Instruction.make i.opcode i.domain i.size i.operands threeSecrets = .ok i := by decide
  exact fun i hi => .of_make_self threeSecrets (hmake i hi)

theorem mergeOps_inputs_in_order_single :
    ∃ out : List Instruction, (mergeOps threeSecrets true (threeInputs.map Op.inst)).1 =
      out.map Op.inst ∧
      inputsOf 0 (alikeAt threeSecrets 0 ⟨.rawInput, .base, 1⟩ out) = [(⟨0, 0⟩, 1), (⟨0, 2⟩, 1)] := by
  obtain ⟨out, hout, -, horder⟩ := mergeOps_inputs_in_order threeSecrets true built_threeInputs
  refine ⟨out, hout, (horder _ _ _).trans ?_⟩
  cbv

/-- The vector is asked for before the third input, and taken after it. -/
theorem mergeOps_reorders_inputs :
    (∀ i ∈ threeInputs, i.Built) ∧ ∃ out : List Instruction,
      (mergeOps threeSecrets true (threeInputs.map Op.inst)).1 = out.map Op.inst ∧
        inputsOf 0 threeInputs = [(⟨0, 0⟩, 1), (⟨0, 1⟩, 2), (⟨0, 2⟩, 1)] ∧
        inputsOf 0 out = [(⟨0, 0⟩, 1), (⟨0, 2⟩, 1), (⟨0, 1⟩, 2)] := by
  refine ⟨built_threeInputs, [⟨.rawInput, .base, 1, [.number 0, .reg ⟨0, 0⟩, .number 0, .reg ⟨0, 2⟩]⟩,
    ⟨.rawInput, .base, 2, [.number 0, .reg ⟨0, 1⟩]⟩], by decide, ?_, ?_⟩
  · cbv
  · cbv

end SecureTape
