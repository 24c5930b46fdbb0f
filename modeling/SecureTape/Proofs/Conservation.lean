import SecureTape.Proofs.Meaning

/-!
# What merging conserves

Merging puts the groups of alike instructions into one instruction. No group is lost, none is added,
and what the instructions use of each resource stays the same. The head is that of the first
instruction: the heads of the others are dropped, so they survive only where all heads agree.

1. `exists_merged_perm`: whatever is additive under absorbing is conserved.
2. `totalUsage_eq_count`: the total usage of a resource, of which this is an instance.
3. `mergeOps_conserves_items`: groups are conserved, and so are their heads if these agree.
4. `mergeOps_drops_head`: two openings with different heads.
-/

namespace SecureTape

open Instruction List

variable {regs : RegisterFile} {is : List Instruction} {i j : Instruction}

theorem exists_merged_perm {α : Type} {f : Instruction → List α} {P : Instruction → Prop}
    (hadd : Additive f P is) (regs : RegisterFile) (share : Bool) :
    ∃ out : List Instruction, (mergeOps regs share (is.map Op.inst)).1 = out.map Op.inst ∧
      (out.flatMap f).Perm (is.flatMap f) := by
  cases share with
  | false => exact ⟨is, rfl, .refl _⟩
  | true =>
    obtain ⟨out, hout, hgives⟩ := exists_merged_instructions hadd regs
    refine ⟨out, hout, ?_⟩
    have hperm := (emission_emitted regs (is.map Op.inst)).perm
    rw [length_map] at hperm
    rw [hgives]
    conv_rhs => rw [← filterMap_range is]
    exact (hperm.filterMap _).flatMap_right _

theorem inst_injective : Function.Injective Op.inst := fun _ _ h => Op.inst.inj h

/-! ## Groups -/

namespace Instruction

/-- The groups of an instruction that communicates, without its head; other instructions as they
are. -/
def payloads (i : Instruction) : List Instruction :=
  if i.communicates then i.groups.map fun group => { i with operands := group } else [i]

theorem payloads_absorb (hi : i.WellFormed) (hc : i.communicates) (hk : i.mergeKey = j.mergeKey) :
    (i.absorb j).payloads = i.payloads ++ j.payloads := by
  have hsame (group : List Operand) : { j with operands := group } = { i with operands := group } := by
    obtain ⟨hop, hdomain, hsize⟩ := MergeKey.mk.inj hk.symm
    rw [hop, hdomain, hsize]
  have hcj : j.communicates = true := by
    rw [← hc]
    exact congrArg (fun k : MergeKey => k.opcode.has .communicates) hk.symm
  have hca : (i.absorb j).communicates = true := hc
  simp only [payloads, hca, hc, hcj, if_true, groups_absorb hi hc hk, map_append, hsame]
  rfl

/-- Every resource that an instruction uses, as often as it is used. -/
def materials (i : Instruction) : List Resource := i.usage.flatMap fun e => List.replicate e.2 e.1

theorem materials_absorb (hi : i.WellFormed) (hc : i.communicates) (hk : i.mergeKey = j.mergeKey) :
    (i.absorb j).materials = i.materials ++ j.materials := by
  have hgroups := groups_absorb hi hc hk
  obtain ⟨hop, hdomain, hsize⟩ := MergeKey.mk.inj hk.symm
  rcases opcode_of_communicates hc with h | h | h
  · simp only [materials, usage, absorb_opcode, hop, h, flatMap_nil, append_nil]
  · simp only [materials, usage, absorb_opcode, absorb_domain, absorb_size, hop, h, hdomain,
      hsize, hgroups,
      length_append, Nat.mul_add, replicate_add, flatMap_cons, flatMap_nil,
      append_nil]
  · simp only [materials, usage, absorb_opcode, absorb_domain, absorb_size, hop, h, hdomain,
      hsize, hgroups,
      filterMap_append, flatMap_append]

theorem additive_of_wellFormed {α : Type} {f : Instruction → List α} (hwf : ∀ i ∈ is, i.WellFormed)
    (hf : ∀ {i j : Instruction}, i.WellFormed → i.communicates = true → i.mergeKey = j.mergeKey →
      f (i.absorb j) = f i ++ f j) : Additive f WellFormed is where
  start := hwf
  absorb hi hj hc hk := ⟨hi.absorb (hwf _ hj) hk, hf hi hc hk⟩

end Instruction

/-- What instructions use of a resource altogether. -/
def totalUsage (key : Resource) (is : List Instruction) : Nat :=
  (((is.flatMap usage).filter (·.1 = key)).map (·.2)).foldr (· + ·) 0

theorem totalUsage_eq_count (key : Resource) (is : List Instruction) :
    totalUsage key is = (is.flatMap materials).count key := by
  have hflat : is.flatMap materials = (is.flatMap usage).flatMap fun e => List.replicate e.2 e.1 :=
    flatMap_assoc.symm
  rw [hflat, totalUsage]
  induction is.flatMap usage with
  | nil => rfl
  | cons e es ih =>
    rw [flatMap_cons, count_append, ← ih, count_replicate, filter_cons]
    by_cases h : e.1 = key <;> simp [h]

/-! ## Items -/

/-- Merging conserves the groups of all instructions, and it conserves them with their heads if
alike instructions that communicate have the same head. -/
theorem mergeOps_conserves_items (regs : RegisterFile) (share : Bool) (hb : ∀ i ∈ is, i.Built) :
    ∃ out : List Instruction, (mergeOps regs share (is.map Op.inst)).1 = out.map Op.inst ∧
      (out.flatMap payloads).Perm (is.flatMap payloads) ∧
      ((∀ i ∈ is, ∀ j ∈ is, i.communicates = true → i.mergeKey = j.mergeKey → i.head = j.head) →
        (out.flatMap actions).Perm (is.flatMap actions)) := by
  have hwf : ∀ i ∈ is, i.WellFormed := fun i hi => (hb i hi).wellFormed
  obtain ⟨out, hout, hpayloads⟩ :=
    exists_merged_perm (additive_of_wellFormed hwf payloads_absorb) regs share
  refine ⟨out, hout, hpayloads, fun hheads => ?_⟩
  obtain ⟨out', hout', hactions⟩ := exists_merged_perm (additive_actions hwf hheads) regs share
  rwa [inst_injective.list_map (hout.symm.trans hout')]

def twoSecrets : RegisterFile where
  tape := 0
  regs := #[{ cls := .clear, size := 1, index := 0 }, { cls := .clear, size := 1, index := 1 },
    { cls := .secret, size := 1, index := 0 }, { cls := .secret, size := 1, index := 1 }]

def twoOpenings (first second : Int) : List Instruction :=
  [⟨.reveal, .base, 1, [.number first, .reg ⟨0, 0⟩, .reg ⟨0, 2⟩]⟩,
    ⟨.reveal, .base, 1, [.number second, .reg ⟨0, 1⟩, .reg ⟨0, 3⟩]⟩]

theorem mergeOps_conserves_items_openings :
    ∃ out : List Instruction, (mergeOps twoSecrets true ((twoOpenings 7 7).map Op.inst)).1 =
      out.map Op.inst ∧
      (out.flatMap actions).Perm ((twoOpenings 7 7).flatMap actions) := by
  have hmake : ∀ i ∈ twoOpenings 7 7,
      Instruction.make i.opcode i.domain i.size i.operands twoSecrets = .ok i := by decide
  obtain ⟨out, hout, -, hitems⟩ := mergeOps_conserves_items twoSecrets true
    fun i hi => Built.of_make_self twoSecrets (hmake i hi)
  exact ⟨out, hout, hitems (by decide)⟩

/-- Of two openings with different heads the second is emitted with the head of the first. -/
theorem mergeOps_drops_head :
    (∀ i ∈ twoOpenings 0 1, Instruction.make i.opcode i.domain i.size i.operands twoSecrets = .ok i) ∧
      ∃ out : List Instruction,
        (mergeOps twoSecrets true ((twoOpenings 0 1).map Op.inst)).1 = out.map Op.inst ∧
        ¬ (out.flatMap actions).Perm ((twoOpenings 0 1).flatMap actions) := by
  let both : Instruction :=
    ⟨.reveal, .base, 1, [.number 0, .reg ⟨0, 0⟩, .reg ⟨0, 2⟩, .reg ⟨0, 1⟩, .reg ⟨0, 3⟩]⟩
  refine ⟨by decide, [both], by decide, ?_⟩
  have hbefore : (twoOpenings 0 1).flatMap actions = twoOpenings 0 1 := by cbv
  have hafter : [both].flatMap actions = twoOpenings 0 0 := by cbv
  rw [hbefore, hafter]
  decide

end SecureTape
