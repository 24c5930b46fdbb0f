import SecureTape.Proofs.LongestChains

/-!
# Merging twice

Merging has nothing left to do after it has run. Main statements:
1. `conflict_merged_iff`: merged operations conflict exactly if members of their units do.
2. `depth_merged`: an operation keeps its depth when it becomes part of a merged one, since batches
   make no chain of conflicts longer.
3. `opUnits_merged`: no two merged operations have depth and kind in common, so each is a unit
   alone.
4. `mergeOps_mergeOps`: the order in which units are chosen leaves operations alone whose units have
   one member each, so that merging twice is merging once.
-/

namespace SecureTape

open MergeUnit List Op

/-! ## What the operations of a unit have in common -/

variable {c : Cell}

/-- The operations agree in all but their registers. -/
structure Op.SameKind (a b : Op) : Prop where
  batch : a.batch? = b.batch?
  weight : a.weight = b.weight
  isIo : a.isIo = b.isIo
  isBarrier : a.isBarrier = b.isBarrier
  loads : a.loads = b.loads
  stores : a.stores = b.stores

theorem Op.SameKind.refl (a : Op) : Op.SameKind a a := ⟨rfl, rfl, rfl, rfl, rfl, rfl⟩

/-- Operations of one batch are of the same kind, if calls have the same template. -/
theorem Op.SameKind.of_batch? {a b : Op} {batch : Batch} (ha : a.batch? = some batch)
    (hb : b.batch? = some batch)
    (ht : ∀ c d, a = .call c → b = .call d → c.key = d.key → c.template = d.template) :
    Op.SameKind a b := by
  have hbatch := ha.trans hb.symm
  cases a with
  | inst i =>
    cases b with
    | inst j =>
      simp only [batch?, Option.ite_none_right_eq_some, Option.some.injEq] at ha hb
      have hkey : i.mergeKey = j.mergeKey := Batch.inst.inj (ha.2.trans hb.2.symm)
      have hopcode : i.opcode = j.opcode := congrArg MergeKey.opcode hkey
      have hhas (flag : OpFlag) : i.has flag = j.has flag := congrArg (Opcode.has · flag) hopcode
      refine ⟨hbatch, ?_, hhas .io, ?_, ?_, ?_⟩
      · simp [Op.weight, ha.1, hb.1]
      all_goals simp [Op.isBarrier, Op.loads, Op.stores, hhas, hopcode]
    | call d =>
      simp only [batch?, Option.ite_none_right_eq_some] at ha hb
      cases ha.2.trans hb.symm
  | call c =>
    cases b with
    | inst j =>
      simp only [batch?, Option.ite_none_right_eq_some] at ha hb
      cases hb.2.trans ha.symm
    | call d =>
      have htemplate := ht c d rfl rfl (Batch.call.inj (Option.some.inj hbatch))
      refine ⟨hbatch, ?_, ?_, rfl, rfl, ?_⟩
      all_goals simp only [Op.weight, Op.isIo, Op.stores, htemplate]

variable {regs : RegisterFile} {ops : List Op}

/-- The operation stands for the operations with the numbers, which are of its kind. -/
structure StandsFor (ops : List Op) (ks : List Nat) (m : Op) : Prop where
  gathers : Gathers (opsAt ops ks) m
  kind : ∀ k ∈ ks, ∃ op, ops[k]? = some op ∧ op.SameKind m
  nonempty : ks ≠ []

namespace StandsFor

variable {ks : List Nat} {m : Op}

theorem exists_member_iff (h : StandsFor ops ks m) {P : Op → Prop} {q : Prop}
    (hP : ∀ {op}, op.SameKind m → (P op ↔ q)) : (∃ k ∈ ks, ∃ op, ops[k]? = some op ∧ P op) ↔ q := by
  constructor
  · rintro ⟨k, hk, op, hop, hPop⟩
    obtain ⟨o, ho, hkind⟩ := h.kind k hk
    cases ho.symm.trans hop
    exact (hP hkind).1 hPop
  · intro hq
    obtain ⟨k, hk⟩ := exists_mem_of_ne_nil _ h.nonempty
    obtain ⟨op, hop, hkind⟩ := h.kind k hk
    exact ⟨k, hk, op, hop, (hP hkind).2 hq⟩

theorem mem_writes_iff (h : StandsFor ops ks m) : c ∈ (m.footprint regs).writes ↔
    ∃ k ∈ ks, ∃ op, ops[k]? = some op ∧ c ∈ (op.footprint regs).writes := by
  cases c with
  | slot key =>
    simp only [slot_mem_writes_iff, h.gathers.writes, mem_opsAt]
    aesop
  | channel =>
    simp only [channel_mem_writes_iff]
    exact (h.exists_member_iff fun hkind => by rw [hkind.isIo]).symm
  | memory cls =>
    simp only [memory_mem_writes_iff]
    exact (h.exists_member_iff fun hkind => by rw [hkind.stores]).symm
  | control =>
    simp only [control_mem_writes_iff]
    exact (h.exists_member_iff fun hkind => by rw [hkind.isBarrier]).symm

theorem mem_reads_iff (h : StandsFor ops ks m) : c ∈ (m.footprint regs).reads ↔
    ∃ k ∈ ks, ∃ op, ops[k]? = some op ∧ c ∈ (op.footprint regs).reads := by
  cases c with
  | slot key =>
    simp only [slot_mem_reads_iff, h.gathers.reads, mem_opsAt]
    aesop
  | channel =>
    simp only [channel_mem_reads_iff, communicates_iff]
    exact (h.exists_member_iff fun hkind => by rw [hkind.isIo, hkind.weight]).symm
  | memory cls =>
    simp only [memory_mem_reads_iff]
    exact (h.exists_member_iff fun hkind => by rw [hkind.loads]).symm
  | control =>
    exact (h.exists_member_iff fun _ => by simp [footprint]).symm

theorem conflicts_iff {ls : List Nat} {n : Op} (h : StandsFor ops ks m) (h' : StandsFor ops ls n) :
    (m.footprint regs).conflicts (n.footprint regs) ↔
      ∃ i ∈ ks, ∃ j ∈ ls, Conflict regs ops i j := by
  simp only [Footprint.conflicts_iff, Footprint.MeetsAt, h.mem_writes_iff, h.mem_reads_iff,
    h'.mem_writes_iff, h'.mem_reads_iff, Conflict]
  constructor
  · rintro ⟨c, ⟨⟨i, hi, a, ha, hca⟩, ⟨j, hj, b, hb, hcb⟩ | ⟨j, hj, b, hb, hcb⟩⟩ |
      ⟨⟨i, hi, a, ha, hca⟩, j, hj, b, hb, hcb⟩⟩
    · exact ⟨i, hi, j, hj, a, b, ha, hb, c, .inl ⟨hca, .inl hcb⟩⟩
    · exact ⟨i, hi, j, hj, a, b, ha, hb, c, .inl ⟨hca, .inr hcb⟩⟩
    · exact ⟨i, hi, j, hj, a, b, ha, hb, c, .inr ⟨hca, hcb⟩⟩
  · rintro ⟨i, hi, j, hj, a, b, ha, hb, c, ⟨hca, hcb⟩ | ⟨hca, hcb⟩⟩
    · exact ⟨c, .inl ⟨⟨i, hi, a, ha, hca⟩, hcb.imp (⟨j, hj, b, hb, ·⟩) (⟨j, hj, b, hb, ·⟩)⟩⟩
    · exact ⟨c, .inr ⟨⟨i, hi, a, ha, hca⟩, j, hj, b, hb, hcb⟩⟩

end StandsFor

/-! ## Merged operations -/

section Merged

variable (hlayout : ∀ op ∈ ops, op.HasLayout) (ht : SameTemplates ops)
include hlayout ht

variable {x i : Nat} {u : MergeUnit}

theorem standsFor_emitted (hu : (emitted regs ops)[x]? = some u) :
    ∃ m, (mergeRounds regs ops).1[x]? = some m ∧ StandsFor ops u.members m := by
  obtain ⟨f, hout, hf⟩ := exists_mergeRounds_eq_map regs hlayout ht
  have hmem := mem_of_getElem? hu
  have hx : (mergeRounds regs ops).1[x]? = some (f u) := by simp [hout, hu]
  refine ⟨f u, hx, hf u hmem, ?_, (emission_emitted regs ops).nonempty u hmem⟩
  intro k hk
  have hux : ((emitted regs ops).map (·.members))[x]? = some u.members := by simp [hu]
  rcases (arranges_mergeRounds regs ops).batch?_of_mem hux hx hk with hop | ⟨op, b, hop, hb, hm⟩
  · exact ⟨f u, hop, .refl _⟩
  · refine ⟨op, hop, .of_batch? hb hm ?_⟩
    rintro c d rfl hd hkey
    obtain ⟨e, he, htemplate⟩ := (hf u hmem).template hd
    obtain ⟨l, -, hl⟩ := mem_opsAt.1 he
    rw [← htemplate]
    refine ht c e (mem_of_getElem? hop) (mem_of_getElem? hl) ?_
    rw [hkey, MacroCall.key, MacroCall.key, htemplate]

theorem length_mergeRounds : (mergeRounds regs ops).1.length = (emitted regs ops).length := by
  obtain ⟨f, hout, -⟩ := exists_mergeRounds_eq_map regs hlayout ht
  rw [hout, length_map]

theorem conflict_merged_iff {y : Nat} {v : MergeUnit} (hu : (emitted regs ops)[x]? = some u)
    (hv : (emitted regs ops)[y]? = some v) : Conflict regs (mergeRounds regs ops).1 x y ↔
      ∃ i ∈ u.members, ∃ j ∈ v.members, Conflict regs ops i j := by
  obtain ⟨m, hm, hstands⟩ := standsFor_emitted hlayout ht hu
  obtain ⟨n, hn, hstands'⟩ := standsFor_emitted hlayout ht hv
  rw [← hstands.conflicts_iff hstands', Conflict, hm, hn]
  simp

theorem weightAt_merged (hu : (emitted regs ops)[x]? = some u) (hi : i ∈ u.members) :
    weightAt (mergeRounds regs ops).1 x = weightAt ops i := by
  obtain ⟨m, hm, hstands⟩ := standsFor_emitted hlayout ht hu
  obtain ⟨op, hop, hkind⟩ := hstands.kind i hi
  simp [weightAt, hm, hop, hkind.weight]

omit hlayout ht in
theorem exists_emitted {i : Nat} (hi : i < ops.length) :
    ∃ (x : Nat) (u : MergeUnit), (emitted regs ops)[x]? = some u ∧ i ∈ u.members := by
  have hmem := (emission_emitted regs ops).perm.mem_iff.2 (mem_range.2 hi)
  obtain ⟨u, hu, hiu⟩ := mem_flatMap.1 hmem
  obtain ⟨x, hx⟩ := mem_iff_getElem?.1 hu
  exact ⟨x, u, hx, hiu⟩

omit hlayout ht in
theorem lt_iff_of_conflict {x y i j : Nat} {u v : MergeUnit} (hu : (emitted regs ops)[x]? = some u)
    (hv : (emitted regs ops)[y]? = some v) (hi : i ∈ u.members) (hj : j ∈ v.members)
    (hconflict : Conflict regs ops i j) (hij : i ≠ j) : x < y ↔ i < j := by
  have h := emission_emitted regs ops
  obtain ⟨hx, rfl⟩ := List.getElem?_eq_some_iff.1 hu
  obtain ⟨hy, rfl⟩ := List.getElem?_eq_some_iff.1 hv
  have hord := pairwise_iff_getElem.1 h.ordered
  rcases Nat.lt_trichotomy x y with hlt | rfl | hgt
  · exact ⟨fun _ => hord x y hx hy hlt i hi j hj hconflict, fun _ => hlt⟩
  · have : Std.Symm fun i j => ¬Conflict regs ops i j := ⟨fun _ _ hn hc => hn hc.symm⟩
    exact absurd hconflict ((h.independent _ (getElem_mem hx)).forall hi hj hij)
  · have hlt := hord y x hy hx hgt j hj i hi hconflict.symm
    omega

omit hlayout ht in
theorem depth_eq_of_mem {x i j : Nat} {u : MergeUnit} (hu : (emitted regs ops)[x]? = some u)
    (hi : i ∈ u.members) (hj : j ∈ u.members) :
    (opDepths regs ops).getD i 0 = (opDepths regs ops).getD j 0 := by
  have hpart := partition_opUnits regs ops
  have hmem := (perm_emitted regs ops).mem_iff.1 (mem_of_getElem? hu)
  cases hkey : u.key with
  | none =>
    obtain ⟨k, hk⟩ := hpart.single u hmem hkey
    rw [hk, mem_singleton] at hi hj
    rw [hi, hj]
  | some key =>
    rw [depth_of_keyOf ((hpart.key u hmem i hi).symm.trans hkey),
      depth_of_keyOf ((hpart.key u hmem j hj).symm.trans hkey)]

/-- An operation is not deeper than the merged operation it becomes part of: by induction on the
operation, from the dependency that it waits for longest. -/
theorem depth_le_merged (hu : (emitted regs ops)[x]? = some u) (hi : i ∈ u.members) :
    (opDepths regs ops).getD i 0 ≤
      (opDepths regs (mergeRounds regs ops).1).getD x 0 := by
  induction i using Nat.strong_induction_on generalizing x u with
  | _ i ih =>
    by_cases hzero : (opDepths regs ops).getD i 0 = 0
    · omega
    have hlt : i < ops.length := by
      obtain ⟨_, _, hstands⟩ := standsFor_emitted hlayout ht hu
      obtain ⟨op, hop, -⟩ := hstands.kind i hi
      exact (List.getElem?_eq_some_iff.1 hop).1
    obtain ⟨p, hp, hmax⟩ := exists_dependency_depth hlt hzero
    have hpi := lt_of_mem_dependencies hp
    have hconflict := conflict_of_mem_dependencies hp
    obtain ⟨y, v, hv, hpv⟩ := @exists_emitted regs ops p (hpi.trans hlt)
    have hyx := (lt_iff_of_conflict hv hu hpv hi hconflict (hpi.ne)).2 hpi
    have hstep := depth_add_weightAt_le (reaches_of_conflict hyx
      ((conflict_merged_iff hlayout ht hv hu).2 ⟨p, hpv, i, hi, hconflict⟩))
    have hle := ih p hpi hv hpv
    rw [weightAt_merged hlayout ht hv hpv] at hstep
    omega

/-- A merged operation is not deeper than its members: by induction on the merged operation, since
members of a unit have one depth. -/
theorem merged_le_depth (hu : (emitted regs ops)[x]? = some u) (hi : i ∈ u.members) :
    (opDepths regs (mergeRounds regs ops).1).getD x 0 ≤
      (opDepths regs ops).getD i 0 := by
  induction x using Nat.strong_induction_on generalizing i u with
  | _ x ih =>
    by_cases hzero : (opDepths regs (mergeRounds regs ops).1).getD x 0 = 0
    · omega
    have hlt : x < (mergeRounds regs ops).1.length := by
      rw [length_mergeRounds hlayout ht]
      exact (List.getElem?_eq_some_iff.1 hu).1
    obtain ⟨y, hy, hmax⟩ := exists_dependency_depth hlt hzero
    have hyx := lt_of_mem_dependencies hy
    obtain ⟨v, hv⟩ : ∃ v, (emitted regs ops)[y]? = some v :=
      ⟨_, List.getElem?_eq_getElem (hyx.trans (List.getElem?_eq_some_iff.1 hu).1)⟩
    obtain ⟨p, hp, j, hj, hconflict⟩ :=
      (conflict_merged_iff hlayout ht hv hu).1 (conflict_of_mem_dependencies hy)
    have hpj : p < j := by
      refine (lt_iff_of_conflict hv hu hp hj hconflict ?_).1 hyx
      rintro rfl
      -- no operation is in two units
      have hnodup := (arranges_mergeRounds regs ops).nodup
      have hdisjoint := Arranges.disjoint_getD hnodup (hyx.ne)
      exact hdisjoint (a := p) (by simpa [hv] using hp) (by simpa [hu] using hj)
    have hstep := depth_add_weightAt_le (reaches_of_conflict hpj hconflict)
    have hle := ih y hyx hv hp
    rw [weightAt_merged hlayout ht hv hp] at hmax
    rw [depth_eq_of_mem hu hi hj]
    omega

theorem depth_merged (hu : (emitted regs ops)[x]? = some u) (hi : i ∈ u.members) :
    (opDepths regs (mergeRounds regs ops).1).getD x 0 =
      (opDepths regs ops).getD i 0 :=
  le_antisymm (merged_le_depth hlayout ht hu hi) (depth_le_merged hlayout ht hu hi)

theorem keyOf_merged (hu : (emitted regs ops)[x]? = some u) :
    keyOf (mergeRounds regs ops).1 (opDepths regs (mergeRounds regs ops).1) x = u.key := by
  obtain ⟨m, hm, hstands⟩ := standsFor_emitted hlayout ht hu
  obtain ⟨i, hi⟩ := exists_mem_of_ne_nil _ hstands.nonempty
  obtain ⟨op, hop, hkind⟩ := hstands.kind i hi
  have hmem := (perm_emitted regs ops).mem_iff.1 (mem_of_getElem? hu)
  rw [(partition_opUnits regs ops).key u hmem i hi, keyOf, keyOf, hm, hop,
    depth_merged hlayout ht hu hi]
  simp [hkind.batch]

end Merged

/-! ## Units with one member each -/

theorem ofOps_eq_of_distinct {depths : Array Nat} (h : ∀ i j, i < j → j < ops.length →
    (keyOf ops depths j).isSome = true → keyOf ops depths i ≠ keyOf ops depths j) :
    ofOps ops depths = (range ops.length).map fun i => ⟨keyOf ops depths i, [i]⟩ := by
  refine ofOps_induction (Q := fun n units => units = (range n).map fun i =>
    ⟨keyOf ops depths i, [i]⟩) rfl ?_
  rintro n _ hlt rfl
  rw [place, if_neg]
  · simp [range_succ]
  · rintro ⟨hsome, hany⟩
    obtain ⟨u, hu, heq⟩ := any_eq_true.1 hany
    obtain ⟨i, hi, rfl⟩ := mem_map.1 hu
    exact h i _ (mem_range.1 hi) hlt hsome (of_decide_eq_true heq)

theorem order_eq_range' {deps : Array (List Nat)} (hdeps : ∀ k, ∀ d ∈ deps.getD k [], d < k)
    {fuel s : Nat} {done : Array Bool} (hsize : done.size = s + fuel)
    (hdone : ∀ d < s, done.getD d false) :
    order deps fuel done (range' s fuel) = range' s fuel := by
  induction fuel generalizing s done with
  | zero => rfl
  | succ fuel ih =>
    have hready : (deps.getD s []).all (done.getD · false) = true :=
      all_eq_true.2 fun d hd => hdone d (hdeps s d hd)
    rw [range'_succ, order, find?_cons, hready]
    simp only [erase_cons_head]
    rw [ih (by simp [hsize]; omega)]
    intro d hd
    rw [Array.getD_eq_getD_getElem?, Array.getElem?_setIfInBounds]
    by_cases hds : s = d
    · subst hds
      simp [hsize]
    · rw [if_neg hds, ← Array.getD_eq_getD_getElem?]
      exact hdone d (by omega)

/-- Operations whose units have one member each are emitted as they stand. -/
theorem mergeRounds_of_single
    (h : (opUnits regs ops).map (·.members) = (range ops.length).map ([·])) :
    (mergeRounds regs ops).1 = ops := by
  have hlength : (opUnits regs ops).length = ops.length := by simpa using congrArg length h
  have hunit {k : Nat} {u : MergeUnit} (hu : (opUnits regs ops)[k]? = some u) : u.members = [k] := by
    have hk := congrArg (·[k]?) h
    have hlt := (List.getElem?_eq_some_iff.1 hu).1
    rw [hlength] at hlt
    simpa [hu, hlt] using hk
  have hdeps (k : Nat) : ∀ d ∈ (unitDependencies regs ops).getD k [], d < k := by
    intro d hd
    cases hu : (opUnits regs ops)[k]? with
    | none => simp [unitDependencies, hu] at hd
    | some u =>
      obtain ⟨-, i, hi, p, hp, rfl⟩ := (mem_unitDependencies_iff hu).1 hd
      rw [hunit hu, mem_singleton] at hi
      subst hi
      have hpi := lt_of_mem_dependencies hp
      have hlt := hpi.trans (List.getElem?_eq_some_iff.1 hu).1
      have hv := getElem?_eq_getElem hlt
      rwa [(partition_opUnits regs ops).assignment_eq hv (by simp [hunit hv])]
  have horder : unitOrder regs ops = range ops.length := by
    rw [unitOrder, hlength, range_eq_range']
    exact order_eq_range' hdeps (by simp) (by simp)
  rw [mergeRounds_fst, horder]
  conv_rhs => rw [← Instruction.filterMap_range ops]
  refine filterMap_congr fun k hk => ?_
  have hlt : k < (opUnits regs ops).length := hlength ▸ mem_range.1 hk
  have hu := getElem?_eq_getElem hlt
  have hop := getElem?_eq_getElem (mem_range.1 hk)
  simp [MergeUnit.merged?, hu, hunit hu, hop]

/-! ## Merging again -/

theorem foldl_max_le_of_subset {xs ys : List Nat} (h : xs ⊆ ys) : xs.foldl max 0 ≤ ys.foldl max 0 := by
  by_cases hzero : xs.foldl max 0 = 0
  · omega
  · exact le_foldl_max (.inl (h (foldl_max_mem hzero)))

section Again

variable (hlayout : ∀ op ∈ ops, op.HasLayout) (ht : SameTemplates ops)
include hlayout ht

theorem opUnits_merged : opUnits regs (mergeRounds regs ops).1 =
    (range (mergeRounds regs ops).1.length).map fun x =>
      ⟨keyOf (mergeRounds regs ops).1 (opDepths regs (mergeRounds regs ops).1) x, [x]⟩ := by
  refine ofOps_eq_of_distinct ?_
  intro x y hxy hy hsome
  rw [length_mergeRounds hlayout ht] at hy
  have hu := getElem?_eq_getElem (hxy.trans hy)
  have hv := getElem?_eq_getElem hy
  rw [keyOf_merged hlayout ht hv] at hsome ⊢
  rw [keyOf_merged hlayout ht hu]
  have hdistinct : (emitted regs ops).Pairwise fun u v => u.key.isSome → u.key ≠ v.key := by
    refine ((perm_emitted regs ops).pairwise_iff ?_).2 (partition_opUnits regs ops).distinct
    intro u v huv hsome heq
    exact huv (heq ▸ hsome) heq.symm
  intro heq
  exact pairwise_iff_getElem.1 hdistinct x y (hxy.trans hy) hy hxy (heq ▸ hsome) heq

theorem mergeRounds_mergeRounds_fst :
    (mergeRounds regs (mergeRounds regs ops).1).1 = (mergeRounds regs ops).1 := by
  refine mergeRounds_of_single ?_
  rw [opUnits_merged hlayout ht, map_map]
  rfl

theorem rounds_merged :
    (mergeRounds regs (mergeRounds regs ops).1).2.rounds = (mergeRounds regs ops).2.rounds := by
  have hsum {x i : Nat} {u : MergeUnit} (hu : (emitted regs ops)[x]? = some u) (hi : i ∈ u.members) :
      (opDepths regs (mergeRounds regs ops).1).getD x 0 + weightAt (mergeRounds regs ops).1 x =
        (opDepths regs ops).getD i 0 + weightAt ops i := by
    rw [depth_merged hlayout ht hu hi, weightAt_merged hlayout ht hu hi]
  rw [rounds_eq, rounds_eq]
  refine le_antisymm (foldl_max_le_of_subset ?_) (foldl_max_le_of_subset ?_)
  · intro n hn
    obtain ⟨x, hx, rfl⟩ := mem_map.1 hn
    rw [mem_range, length_mergeRounds hlayout ht] at hx
    have hu := getElem?_eq_getElem hx
    obtain ⟨m, -, hstands⟩ := standsFor_emitted hlayout ht hu
    obtain ⟨i, hi⟩ := exists_mem_of_ne_nil _ hstands.nonempty
    obtain ⟨op, hop, -⟩ := hstands.kind i hi
    have hlt := (List.getElem?_eq_some_iff.1 hop).1
    exact mem_map.2 ⟨i, mem_range.2 hlt, (hsum hu hi).symm⟩
  · intro n hn
    obtain ⟨i, hi, rfl⟩ := mem_map.1 hn
    obtain ⟨x, u, hu, hiu⟩ := @exists_emitted regs ops i (mem_range.1 hi)
    refine mem_map.2 ⟨x, mem_range.2 ?_, hsum hu hiu⟩
    rw [length_mergeRounds hlayout ht]
    exact (List.getElem?_eq_some_iff.1 hu).1

end Again

/-- Merging twice is merging once: operations, rounds and groups stay as they are. -/
theorem mergeOps_mergeOps (regs : RegisterFile) (hlayout : ∀ op ∈ ops, op.HasLayout)
    (ht : SameTemplates ops) :
    mergeOps regs true (mergeOps regs true ops).1 = mergeOps regs true ops := by
  show mergeRounds regs (mergeRounds regs ops).1 = mergeRounds regs ops
  have hfst : (mergeRounds regs (mergeRounds regs ops).1).1 = (mergeRounds regs ops).1 :=
    mergeRounds_mergeRounds_fst hlayout ht
  refine Prod.ext hfst ?_
  have hgroups :
      (mergeRounds regs (mergeRounds regs ops).1).2.groups = (mergeRounds regs ops).2.groups := by
    rw [groups_eq_countP, groups_eq_countP, hfst]
  exact congrArg₂ (⟨·, ·, 0⟩ : Nat → Nat → MergeStats) (rounds_merged hlayout ht) hgroups

/-- Two openings become one, and that is left alone. -/
theorem mergeOps_mergeOps_openings :
    mergeOps twoSecrets true ((twoOpenings 7 7).map Op.inst) ≠
        mergeOps twoSecrets false ((twoOpenings 7 7).map Op.inst) ∧
      mergeOps twoSecrets true (mergeOps twoSecrets true ((twoOpenings 7 7).map Op.inst)).1 =
        mergeOps twoSecrets true ((twoOpenings 7 7).map Op.inst) := by
  refine ⟨by decide, mergeOps_mergeOps twoSecrets ?_ ?_⟩
  · have hformats : ∀ i ∈ twoOpenings 7 7,
        (i.opcode.layout.formats? i.operands.length).isSome = true := by decide
    exact forall_mem_map.2 hformats
  · intro c d hc
    simp at hc

end SecureTape
