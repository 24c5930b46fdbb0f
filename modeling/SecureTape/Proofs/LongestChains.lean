import Mathlib.Data.Finset.Card
import Mathlib.Data.List.Chain
import Mathlib.Order.Bounds.Basic
import SecureTape.Proofs.Arrangements
import SecureTape.Proofs.Conflicts
import SecureTape.Proofs.Conservation

/-!
# The longest chain of communication

The rounds that are reported for a block are those of the longest chain of operations each of which
conflicts with the next, so no order of the block could do with fewer. Main statements:
1. `isGreatest_rounds`: merging reports the rounds of the longest chain.
2. `rounds_le_card`: communication that respects all dependencies takes at least as many rounds.
3. `groups_eq_countP`: the groups that are reported are the operations that communicate afterwards.
4. `mergeOps_rounds_exact`: all this for instructions, with what they use.
-/

namespace SecureTape

open MergeUnit List Instruction Op

variable {regs : RegisterFile} {ops : List Op}

/-! ## Chains -/

variable {i : Nat} {ks : List Nat}

/-- The rounds of the operation with the number. -/
def weightAt (ops : List Op) (i : Nat) : Nat := ((ops[i]?).map Op.weight).getD 0

theorem getD_opWeights (ops : List Op) (i : Nat) : (opWeights ops).getD i 0 = weightAt ops i := by
  simp [opWeights, weightAt]

/-- Numbers of operations, the latest first, each of which conflicts with the one behind it in the
list. -/
def IsConflictChain (regs : RegisterFile) (ops : List Op) (ks : List Nat) : Prop :=
  ks.IsChain fun j i => Precedes regs ops i j

/-- The rounds of operations one after the other. -/
def chainRounds (ops : List Op) : List Nat → Nat
  | [] => 0
  | k :: ks => weightAt ops k + chainRounds ops ks

theorem foldl_max_mem_cons (xs : List Nat) (start : Nat) : xs.foldl max start ∈ start :: xs := by
  induction xs generalizing start with
  | nil => exact .head _
  | cons x xs ih =>
    rcases mem_cons.1 (ih (max start x)) with h | h
    · rw [foldl_cons, h]
      rcases max_choice start x with hx | hx <;> simp [hx]
    · exact .tail _ (.tail _ h)

theorem foldl_max_mem {xs : List Nat} (h : xs.foldl max 0 ≠ 0) : xs.foldl max 0 ∈ xs :=
  (mem_cons.1 (foldl_max_mem_cons xs 0)).resolve_left h

variable {j : Nat}

theorem exists_dependency_depth (hj : j < ops.length) (h : (opDepths regs ops).getD j 0 ≠ 0) :
    ∃ i ∈ (dependencies regs ops).getD j [],
      (opDepths regs ops).getD i 0 + weightAt ops i = (opDepths regs ops).getD j 0 := by
  have hdepth : (opDepths regs ops).getD j 0 =
      roundsAfter (opWeights ops) (opDepths regs ops) ((dependencies regs ops).getD j []) :=
    getD_depths (fun _ _ => lt_of_mem_dependencies) (by rwa [length_dependencies])
  rw [hdepth] at h ⊢
  obtain ⟨i, hi, hmax⟩ := mem_map.1 (foldl_max_mem h)
  exact ⟨i, hi, getD_opWeights ops i ▸ hmax⟩

theorem depth_add_weightAt_le (h : Reaches regs ops i j) :
    (opDepths regs ops).getD i 0 + weightAt ops i ≤ (opDepths regs ops).getD j 0 :=
  getD_opWeights ops i ▸ depth_add_weight_le h

theorem Precedes.reaches (h : Precedes regs ops i j) : Reaches regs ops i j :=
  reaches_of_conflict h.1 (precedes_iff.1 h).2

theorem IsConflictChain.le_depth (h : IsConflictChain regs ops (j :: ks)) :
    chainRounds ops ks ≤ (opDepths regs ops).getD j 0 := by
  induction ks generalizing j with
  | nil => exact Nat.zero_le _
  | cons i ks ih =>
    obtain ⟨hij, htail⟩ := isChain_cons_cons.1 h
    have hfront := ih htail
    have hstep := depth_add_weightAt_le hij.reaches
    rw [chainRounds]
    omega

theorem exists_chain_depth (hj : j < ops.length) :
    ∃ ks, IsConflictChain regs ops (j :: ks) ∧ chainRounds ops ks = (opDepths regs ops).getD j 0 := by
  induction j using Nat.strong_induction_on with
  | _ j ih =>
    by_cases hzero : (opDepths regs ops).getD j 0 = 0
    · exact ⟨[], isChain_singleton j, hzero.symm⟩
    obtain ⟨i, hi, hmax⟩ := exists_dependency_depth hj hzero
    have hlt := lt_of_mem_dependencies hi
    obtain ⟨ks, hchain, hrounds⟩ := ih i hlt (hlt.trans hj)
    refine ⟨i :: ks, isChain_cons_cons.2 ⟨?_, hchain⟩, ?_⟩
    · exact precedes_iff.2 ⟨hlt, conflict_of_mem_dependencies hi⟩
    · rw [← hmax, ← hrounds, chainRounds, add_comm]

theorem rounds_eq (regs : RegisterFile) (ops : List Op) : (mergeRounds regs ops).2.rounds =
    ((List.range ops.length).map fun i => (opDepths regs ops).getD i 0 + weightAt ops i).foldl max
    0 := by
  simp only [← getD_opWeights]
  rfl

theorem isGreatest_rounds (regs : RegisterFile) (ops : List Op) :
    IsGreatest {n | ∃ ks, IsConflictChain regs ops ks ∧ chainRounds ops ks = n}
      (mergeRounds regs ops).2.rounds := by
  rw [rounds_eq]
  constructor
  · by_cases hzero : ((List.range ops.length).map fun i =>
        (opDepths regs ops).getD i 0 + weightAt ops i).foldl max 0 = 0
    · exact ⟨[], isChain_nil, hzero.symm⟩
    · obtain ⟨j, hj, hmax⟩ := mem_map.1 (foldl_max_mem hzero)
      obtain ⟨ks, hchain, hsum⟩ := @exists_chain_depth regs ops j (mem_range.1 hj)
      exact ⟨j :: ks, hchain, by rw [← hmax, ← hsum, chainRounds, Nat.add_comm]⟩
  · rintro n ⟨ks, hchain, rfl⟩
    cases ks with
    | nil => exact Nat.zero_le _
    | cons j ks =>
      have hfront := hchain.le_depth
      rw [chainRounds]
      by_cases hj : j < ops.length
      · have hle := @le_foldl_max _ 0 _ (.inl (mem_map_of_mem (f := fun i =>
          (opDepths regs ops).getD i 0 + weightAt ops i) (mem_range.2 hj)))
        omega
      · -- there is no such operation: it neither waits nor takes rounds
        have hnone : (opDepths regs ops).getD j 0 = 0 := by
          simp [Array.getD_eq_getD_getElem?, opDepths, Nat.le_of_not_lt hj]
        have hweight : weightAt ops j = 0 := by simp [weightAt, Nat.le_of_not_lt hj]
        omega

/-! ## Groups -/

theorem isSome_batch?_of_merged? {u : MergeUnit} (hu : u ∈ emitted regs ops) :
    ∃ m, u.merged? ops.toArray = some m ∧ m.batch?.isSome = u.key.isSome := by
  have hpart := partition_opUnits regs ops
  have hmem := (perm_emitted regs ops).mem_iff.1 hu
  obtain ⟨k, ks, hmembers⟩ := exists_cons_of_ne_nil (hpart.nonempty u hmem)
  have hk : k ∈ u.members := hmembers ▸ mem_cons_self
  have hlt := hpart.lt hmem hk
  have hop := getElem?_eq_getElem hlt
  have hfound : u.members.filterMap (ops.toArray[·]?) =
      ops[k] :: ks.filterMap (ops.toArray[·]?) := by
    simp [hmembers, hop]
  refine ⟨_, by rw [MergeUnit.merged?, hfound], ?_⟩
  rw [batch?_foldl_absorb, hpart.key u hmem k hk, keyOf, hop]
  simp

theorem groups_eq_countP (regs : RegisterFile) (ops : List Op) :
    (mergeRounds regs ops).2.groups = (mergeRounds regs ops).1.countP (·.batch?.isSome) := by
  have hunits : (mergeRounds regs ops).2.groups = (opUnits regs ops).countP (·.key.isSome) :=
    countP_eq_length_filter.symm
  rw [hunits, mergeRounds_eq_emitted, countP_filterMap, ← (perm_emitted regs ops).countP_eq]
  refine countP_congr fun u hu => ?_
  obtain ⟨m, hm, hkey⟩ := isSome_batch?_of_merged? hu
  simp [hm, hkey]

/-! ## Instructions -/

section Instructions

variable {is : List Instruction}

def communicatesAt (is : List Instruction) (i : Nat) : Bool :=
  ((is[i]?).map Instruction.communicates).getD false

theorem weightAt_inst (is : List Instruction) (i : Nat) :
    weightAt (is.map inst) i = if communicatesAt is i then 1 else 0 := by
  cases h : is[i]? <;> simp [weightAt, communicatesAt, h, weight]

theorem chainRounds_inst (is : List Instruction) (ks : List Nat) :
    chainRounds (is.map inst) ks = ks.countP (communicatesAt is) := by
  induction ks with
  | nil => rfl
  | cons k ks ih => rw [chainRounds, weightAt_inst, ih, countP_cons, add_comm]

theorem countP_range (is : List Instruction) :
    (List.range is.length).countP (communicatesAt is) = is.countP communicates := by
  conv_rhs => rw [← filterMap_range is, countP_filterMap]
  rfl

/-- The times at which instructions communicate are later for what depends on others. -/
def RespectsDependencies (regs : RegisterFile) (is : List Instruction) (time : Nat → Nat) : Prop :=
  ∀ i j, Reaches regs (is.map Op.inst) i j → communicatesAt is i = true → communicatesAt is j = true →
    time i < time j

/-- The times at which instructions communicate. -/
def timesUsed (is : List Instruction) (time : Nat → Nat) : Finset Nat :=
  ((Finset.range is.length).filter (communicatesAt is · = true)).image time

theorem IsConflictChain.pairwise (h : IsConflictChain regs ops ks) :
    ks.Pairwise fun j i => Reaches regs ops i j := by
  have : IsTrans Nat fun j i => Reaches regs ops i j := ⟨fun _ _ _ hab hbc => hbc.trans hab⟩
  exact (h.imp fun _ _ => Precedes.reaches).pairwise

theorem rounds_le_card {time : Nat → Nat} (h : RespectsDependencies regs is time) :
    (mergeRounds regs (is.map inst)).2.rounds ≤ (timesUsed is time).card := by
  obtain ⟨ks, hchain, hrounds⟩ := (isGreatest_rounds regs (is.map inst)).1
  rw [← hrounds, chainRounds_inst, countP_eq_length_filter]
  -- the instructions of a longest chain communicate at different times
  have hsorted : (ks.filter (communicatesAt is)).Pairwise fun j i => time i < time j := by
    refine (List.Pairwise.and_mem.1 (hchain.pairwise.sublist filter_sublist)).imp ?_
    rintro j i ⟨hj, hi, hreaches⟩
    exact h i j hreaches (mem_filter.1 hi).2 (mem_filter.1 hj).2
  have hnodup : ((ks.filter (communicatesAt is)).map time).Nodup := by
    rw [nodup_iff_pairwise_ne, pairwise_map]
    exact hsorted.imp ne_of_gt
  rw [← length_map (f := time), ← toFinset_card_of_nodup hnodup]
  refine Finset.card_le_card fun t ht => ?_
  obtain ⟨k, hk, rfl⟩ := mem_map.1 (mem_toFinset.1 ht)
  have hcomm := (mem_filter.1 hk).2
  refine Finset.mem_image_of_mem _ (Finset.mem_filter.2 ⟨Finset.mem_range.2 ?_, hcomm⟩)
  by_contra hlt
  simp [communicatesAt, not_lt.1 hlt] at hcomm

theorem communicatesAt_iff {depths : Array Nat} :
    communicatesAt is i ↔ (keyOf (is.map inst) depths i).isSome := by
  cases h : is[i]? with
  | none => simp [communicatesAt, keyOf, h]
  | some j => simp [communicatesAt, keyOf, h, batch?]

/-- Instructions that communicate one after the other do so at different depths, hence in different
units. -/
theorem rounds_le_groups (regs : RegisterFile) (is : List Instruction) :
    (mergeRounds regs (is.map inst)).2.rounds ≤ (mergeRounds regs (is.map inst)).2.groups := by
  have hpart := partition_opUnits regs (is.map inst)
  have hrespects : RespectsDependencies regs is ((opDepths regs (is.map inst)).getD · 0) := by
    intro i j hreaches hi _
    have hle := depth_add_weightAt_le hreaches
    rw [weightAt_inst, if_pos hi] at hle
    exact hle
  let keyed := (opUnits regs (is.map inst)).filter (·.key.isSome)
  have hsub : timesUsed is ((opDepths regs (is.map inst)).getD · 0) ⊆
      (keyed.map fun u => (u.key.map Prod.fst).getD 0).toFinset := by
    intro t ht
    obtain ⟨i, hi, rfl⟩ := Finset.mem_image.1 ht
    obtain ⟨hlt, hcomm⟩ := Finset.mem_filter.1 hi
    obtain ⟨k, u, hu, hiu⟩ := hpart.exists_unit (by simpa using Finset.mem_range.1 hlt)
    have humem := mem_of_getElem? hu
    have hkey := hpart.key u humem i hiu
    obtain ⟨key, hkeyOf⟩ := Option.isSome_iff_exists.1 (communicatesAt_iff.1 hcomm)
    rw [hkeyOf] at hkey
    refine mem_toFinset.2 (mem_map.2 ⟨u, mem_filter.2 ⟨humem, by rw [hkey]; rfl⟩, ?_⟩)
    rw [hkey, depth_of_keyOf hkeyOf]
    rfl
  calc (mergeRounds regs (is.map inst)).2.rounds
      ≤ (timesUsed is ((opDepths regs (is.map inst)).getD · 0)).card := rounds_le_card hrespects
    _ ≤ (keyed.map fun u => (u.key.map Prod.fst).getD 0).toFinset.card := Finset.card_le_card hsub
    _ ≤ keyed.length := length_map (f := fun u : MergeUnit => (u.key.map Prod.fst).getD 0) ▸
        toFinset_card_le _

theorem groups_le_countP (regs : RegisterFile) (is : List Instruction) :
    (mergeRounds regs (is.map inst)).2.groups ≤ is.countP communicates := by
  have hpart := partition_opUnits regs (is.map inst)
  let keyed := (opUnits regs (is.map inst)).filter (·.key.isSome)
  let heads := keyed.map (·.members.headD 0)
  have hnodup : heads.Nodup := by
    rw [nodup_iff_pairwise_ne, pairwise_map]
    exact (hpart.first.sublist filter_sublist).imp ne_of_lt
  have hsub : heads ⊆ (List.range is.length).filter (communicatesAt is) := by
    intro i hi
    obtain ⟨u, hu, rfl⟩ := mem_map.1 hi
    obtain ⟨humem, hkey⟩ := mem_filter.1 hu
    obtain ⟨k, ks, hmembers⟩ := exists_cons_of_ne_nil (hpart.nonempty u humem)
    have hk : k ∈ u.members := hmembers ▸ mem_cons_self
    rw [hpart.key u humem k hk] at hkey
    rw [hmembers]
    exact mem_filter.2 ⟨by simpa using hpart.lt humem hk, communicatesAt_iff.2 hkey⟩
  have hle := (hnodup.subperm hsub).length_le
  rwa [← countP_eq_length_filter, countP_range, length_map] at hle

theorem countRounds_inst (is : List Instruction) :
    (countRounds (is.map inst)).rounds = is.countP communicates := by
  have hfrom (start : Nat) : ((is.map inst).map weight).foldl (· + ·) start =
      start + is.countP communicates := by
    induction is generalizing start with
    | nil => rfl
    | cons i is ih =>
      rw [map_cons, map_cons, foldl_cons, ih, countP_cons, weight]
      omega
  rw [countRounds, hfrom, zero_add]

/-- The rounds of merged instructions are those of the longest chain, and no communication that
respects the dependencies does with fewer. The groups are the instructions that communicate
afterwards: at least as many as there are rounds, and at most as many as rounds without merging. The
instructions use what they used before. -/
theorem mergeOps_rounds_exact (regs : RegisterFile) (hb : ∀ i ∈ is, i.Built) :
    let merged := mergeOps regs true (is.map Op.inst)
    ∃ out : List Instruction, merged.1 = out.map inst ∧
      IsGreatest {n | ∃ ks, IsConflictChain regs (is.map inst) ks ∧ ks.countP (communicatesAt is) = n}
        merged.2.rounds ∧
      (∀ time, RespectsDependencies regs is time → merged.2.rounds ≤ (timesUsed is time).card) ∧
      merged.2.groups = out.countP communicates ∧
      (∀ key, totalUsage key out = totalUsage key is) ∧
      merged.2.rounds ≤ merged.2.groups ∧
      merged.2.groups ≤ (mergeOps regs false (is.map inst)).2.rounds := by
  intro merged
  have hwf : ∀ i ∈ is, i.WellFormed := fun i hi => (hb i hi).wellFormed
  obtain ⟨out, hout, hmaterials⟩ := exists_merged_perm
    (additive_of_wellFormed hwf materials_absorb) regs true
  refine ⟨out, hout, ?_, fun time => rounds_le_card, ?_, ?_, rounds_le_groups regs is, ?_⟩
  · have hgreatest := isGreatest_rounds regs (is.map inst)
    simp only [chainRounds_inst] at hgreatest
    exact hgreatest
  · have hgroups : merged.2.groups = merged.1.countP (·.batch?.isSome) := groups_eq_countP regs _
    rw [hgroups, hout, countP_map]
    refine countP_congr fun i _ => ?_
    cases hc : i.communicates <;> simp [batch?, hc]
  · intro key
    rw [totalUsage_eq_count, totalUsage_eq_count, hmaterials.count_eq]
  · exact (groups_le_countP regs is).trans (countRounds_inst is).ge

/-- Two openings of one round each share it, so that there is one group instead of two rounds. -/
theorem mergeOps_rounds_exact_openings :
    (mergeOps twoSecrets true ((twoOpenings 7 7).map Op.inst)).2.rounds = 1 ∧
      (mergeOps twoSecrets false ((twoOpenings 7 7).map Op.inst)).2.rounds = 2 ∧
      ∀ time, RespectsDependencies twoSecrets (twoOpenings 7 7) time →
        1 ≤ (timesUsed (twoOpenings 7 7) time).card := by
  have hmake : ∀ i ∈ twoOpenings 7 7,
      make i.opcode i.domain i.size i.operands twoSecrets = .ok i := by decide
  obtain ⟨-, -, -, hleast, -⟩ := mergeOps_rounds_exact twoSecrets
    fun i hi => Instruction.Built.of_make_self twoSecrets (hmake i hi)
  exact ⟨by decide, by decide, hleast⟩

end Instructions

end SecureTape
