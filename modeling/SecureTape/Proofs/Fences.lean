import SecureTape.Proofs.Arrangements

/-!
# Fences

Input, output, barriers and jumps stay where they are: whatever stands in front of such an operation
is emitted before it, and whatever follows it is emitted after it. A barrier conflicts with
everything. Input and output conflict only with what communicates, so that for the rest the order in
which units are chosen matters.

1. `order_low_first`: units that depend on nothing above a threshold are emitted before all units
   above it, because the least unit that is ready comes first.
2. `members_of_lt`, `members_of_gt`: a fence is a unit of its own, and no unit has members on both
   sides of it, because communication behind a fence is deeper than communication in front of it.
3. `mergeOps_fences`: both together.
-/

namespace SecureTape

open List

variable {fuel k l m t : Nat} {rank : Nat → Nat} {u : MergeUnit}

namespace MergeUnit

variable {deps : Array (List Nat)} {done : Array Bool} {waiting : List Nat}

theorem mem_of_mem_order (h : k ∈ order deps fuel done waiting) : k ∈ waiting := by
  induction fuel generalizing done waiting with
  | zero => cases h
  | succ fuel ih =>
    rw [order] at h
    split at h
    · cases h
    · rename_i l hfind
      rcases mem_cons.1 h with rfl | hmem
      · exact mem_of_find?_eq_some hfind
      · exact mem_of_mem_erase (ih hmem)

theorem exists_ready (hrank : ∀ k < m, ∀ d ∈ deps.getD k [], d < m ∧ rank d < rank k)
    (hclosed : ∀ k < t, ∀ d ∈ deps.getD k [], d < t) (hbound : ∀ k ∈ waiting, k < m)
    (hdone : ∀ k < m, done.getD k false = true ↔ k ∉ waiting) (hl : l ∈ waiting) (hlt : l < t) :
    ∃ k ∈ waiting, k < t ∧ (deps.getD k []).all (done.getD · false) := by
  -- go down in rank: what keeps a unit from being ready waits below the threshold, too
  induction hr : rank l using Nat.strongRecOn generalizing l with
  | _ r ih =>
    by_cases hready : (deps.getD l []).all (done.getD · false) = true
    · exact ⟨l, hl, hlt, hready⟩
    · obtain ⟨d, hd, hopen⟩ : ∃ d ∈ deps.getD l [], ¬done.getD d false = true := by
        simpa [all_eq_true] using hready
      obtain ⟨hdm, hlower⟩ := hrank l (hbound l hl) d hd
      have hwait : d ∈ waiting := by
        by_contra hnot
        exact hopen ((hdone d hdm).2 hnot)
      exact ih (rank d) (hr ▸ hlower) hwait (hclosed l hlt d hd) rfl

/-- Units below a threshold that depend on nothing above it are emitted before all units above. -/
theorem order_low_first (hrank : ∀ k < m, ∀ d ∈ deps.getD k [], d < m ∧ rank d < rank k)
    (hclosed : ∀ k < t, ∀ d ∈ deps.getD k [], d < t) (hsorted : waiting.Pairwise (· < ·))
    (hbound : ∀ k ∈ waiting, k < m) (hsize : done.size = m)
    (hdone : ∀ k < m, done.getD k false = true ↔ k ∉ waiting) :
    (order deps fuel done waiting).Pairwise fun k l => l < t → k < t := by
  induction fuel generalizing done waiting with
  | zero => exact .nil
  | succ fuel ih =>
    rw [order]
    split
    · exact .nil
    · rename_i k hfind
      have hnodup : waiting.Nodup := hsorted.imp Nat.ne_of_lt
      refine pairwise_cons.2 ⟨?_, ?_⟩
      · intro l hl hlt
        have hwait := mem_of_mem_erase (mem_of_mem_order hl)
        obtain ⟨r, hr, hrt, hready⟩ := exists_ready hrank hclosed hbound hdone hwait hlt
        -- the unit that was chosen is the first that is ready
        obtain ⟨-, before, after, rfl, hbefore⟩ := find?_eq_some_iff_append.1 hfind
        rcases mem_append.1 hr with hr | hr
        · have hnot := hbefore r hr
          rw [hready] at hnot
          cases hnot
        · rcases mem_cons.1 hr with rfl | hr
          · exact hrt
          · have hkr := (pairwise_cons.1 (pairwise_append.1 hsorted).2.1).1 r hr
            exact Nat.lt_trans hkr hrt
      · exact ih (hsorted.sublist erase_sublist)
          (fun l hl => hbound l (mem_of_mem_erase hl)) (by simpa using hsize)
          (done_iff_notMem_erase k hnodup hsize hdone)

end MergeUnit

/-- Input or output, a barrier or a jump. -/
def Op.isFence (op : Op) : Bool := op.isIo || op.isBarrier

section Fences

open MergeUnit

variable {regs : RegisterFile} {ops : List Op} {x : Nat} {op : Op}

theorem conflict_of_isFence (hx : ops[x]? = some op) (hfence : op.isFence) {i : Nat} {o : Op}
    (hi : ops[i]? = some o) (hweight : 0 < o.weight) : Conflict regs ops i x := by
  have hmeet {c : Cell} (hc : c ∈ (op.footprint regs).writes)
      (ho : c ∈ (o.footprint regs).reads ∨ c ∈ (o.footprint regs).writes) :
      Conflict regs ops i x :=
    Conflict.symm (conflict_iff_exists_meetAt.2
      ⟨c, op, o, hx, hi, Footprint.meetsAt_of_writes hc ho⟩)
  rcases Bool.or_eq_true_iff.1 hfence with hio | hbarrier
  · refine @hmeet .channel (by simp [Op.footprint, hio]) ?_
    by_cases hother : o.isIo = true
    · exact .inr (by simp [Op.footprint, hother])
    · exact .inl (by simp [Op.footprint, hother, hweight])
  · exact @hmeet .control (by simp [Op.footprint, hbarrier]) (.inl (by simp [Op.footprint]))

/-- A unit is a fence alone, or it lies in front of the fence or behind it. -/
theorem unit_cases (hx : ops[x]? = some op) (hfence : op.isFence) (hu : u ∈ opUnits regs ops) :
    u.members = [x] ∨ (∀ i ∈ u.members, i < x) ∨ ∀ i ∈ u.members, x < i := by
  have hpart := partition_opUnits regs ops
  cases hkey : u.key with
  | none =>
    obtain ⟨i, hi⟩ := hpart.single u hu hkey
    rw [hi]
    rcases Nat.lt_trichotomy i x with hlt | rfl | hgt
    · exact .inr (.inl (forall_mem_singleton.2 hlt))
    · exact .inl rfl
    · exact .inr (.inr (forall_mem_singleton.2 hgt))
  | some key =>
    -- the members communicate at one depth, and the fence is deeper than what is in front of it
    have hdepth {i : Nat} (hi : i ∈ u.members) : (opDepths regs ops).getD i 0 = key.1 :=
      depth_of_keyOf ((hpart.key u hu i hi).symm.trans hkey)
    have hweight {i : Nat} (hi : i ∈ u.members) : 0 < (opWeights ops).getD i 0 :=
      weight_pos_of_keyOf (by rw [← hpart.key u hu i hi, hkey]; rfl)
    have hconflict {i : Nat} (hi : i ∈ u.members) : Conflict regs ops i x := by
      have hlt := hpart.lt hu hi
      refine conflict_of_isFence hx hfence (getElem?_eq_getElem hlt) ?_
      simpa [opWeights, hlt] using hweight hi
    have hbefore {i : Nat} (hi : i ∈ u.members) (hix : i < x) :
        key.1 < (opDepths regs ops).getD x 0 := by
      have hle := depth_add_weight_le (reaches_of_conflict hix (hconflict hi))
      have hpos := hweight hi
      rw [hdepth hi] at hle
      omega
    have hafter {i : Nat} (hi : i ∈ u.members) (hxi : x < i) :
        (opDepths regs ops).getD x 0 + (opWeights ops).getD x 0 ≤ key.1 := by
      have hle := depth_add_weight_le (reaches_of_conflict hxi (hconflict hi).symm)
      rwa [hdepth hi] at hle
    by_cases hmem : x ∈ u.members
    · refine .inl ?_
      have hall : ∀ i ∈ u.members, i = x := by
        intro i hi
        have hpos := hweight hmem
        have hsame := hdepth hmem
        rcases Nat.lt_trichotomy i x with hlt | rfl | hgt
        · exact absurd (hbefore hi hlt) (by omega)
        · rfl
        · exact absurd (hafter hi hgt) (by omega)
      obtain ⟨n, hn⟩ : ∃ n, u.members = replicate n x := ⟨_, eq_replicate_of_mem hall⟩
      have hsorted := hpart.sorted u hu
      rw [hn] at hmem hsorted ⊢
      rcases n with _ | _ | n
      · cases hmem
      · rfl
      · exact absurd ((pairwise_cons.1 hsorted).1 x (.head _)) (by omega)
    · by_cases hfront : ∃ i ∈ u.members, i < x
      · obtain ⟨i, hi, hix⟩ := hfront
        refine .inr (.inl fun j hj => ?_)
        rcases Nat.lt_trichotomy j x with hlt | rfl | hgt
        · exact hlt
        · exact absurd hj hmem
        · have hdeeper := hbefore hi hix
          have hle := hafter hj hgt
          omega
      · refine .inr (.inr fun j hj => ?_)
        rcases Nat.lt_trichotomy j x with hlt | rfl | hgt
        · exact absurd ⟨j, hj, hlt⟩ hfront
        · exact absurd hj hmem
        · exact hgt

/-- The units in front of the unit of a fence have their members in front of it, and those behind it
have them behind it. -/
theorem members_of_unit (hx : ops[x]? = some op) (hfence : op.isFence) {v : MergeUnit}
    (hu : (opUnits regs ops)[k]? = some u) (hmembers : u.members = [x])
    (hv : (opUnits regs ops)[l]? = some v) :
    (l < k → ∀ i ∈ v.members, i < x) ∧ (k < l → ∀ i ∈ v.members, x < i) := by
  have hpart := partition_opUnits regs ops
  obtain ⟨hk, rfl⟩ := List.getElem?_eq_some_iff.1 hu
  obtain ⟨hl, rfl⟩ := List.getElem?_eq_some_iff.1 hv
  have hfirst := pairwise_iff_getElem.1 hpart.first
  have hvmem := getElem_mem hl
  obtain ⟨i, rest, hhead⟩ := exists_cons_of_ne_nil (hpart.nonempty _ hvmem)
  have hi : i ∈ (opUnits regs ops)[l].members := hhead ▸ mem_cons_self
  have hcases := unit_cases hx hfence hvmem
  constructor
  · intro hlt
    have hix := hfirst l k hl hk hlt
    rw [hmembers, hhead] at hix
    rcases hcases with hsame | hfront | hback
    · exact absurd (mem_singleton.1 (hsame ▸ hi)) (Nat.ne_of_lt hix)
    · exact hfront
    · exact absurd (hback i hi) (Nat.lt_asymm hix)
  · intro hlt
    have hxi := hfirst k l hk hl hlt
    rw [hmembers, hhead] at hxi
    rcases hcases with hsame | hfront | hback
    · exact absurd (mem_singleton.1 (hsame ▸ hi)) (Nat.ne_of_gt hxi)
    · exact absurd (hfront i hi) (Nat.lt_asymm hxi)
    · exact hback

theorem unitOrder_low_first (hclosed : ∀ k < t, ∀ d ∈ (unitDependencies regs ops).getD k [], d < t) :
    (unitOrder regs ops).Pairwise fun k l => l < t → k < t := by
  refine order_low_first (rank_getD_lt regs ops) hclosed pairwise_lt_range (by simp) (by simp) ?_
  intro k hk
  simp [hk]

/-- The operation `x` is a unit of its own between all that precedes it and all that follows it. -/
def Fenced (units : List (List Nat)) (x : Nat) : Prop :=
  ∃ before after, units = before ++ [x] :: after ∧
    (∀ u ∈ before, ∀ i ∈ u, i < x) ∧ ∀ u ∈ after, ∀ i ∈ u, x < i

theorem fenced_emitted (hx : ops[x]? = some op) (hfence : op.isFence) :
    Fenced ((emitted regs ops).map (·.members)) x := by
  have hpart := partition_opUnits regs ops
  have hlt : x < ops.length := (List.getElem?_eq_some_iff.1 hx).1
  obtain ⟨k, u, hu, hxu⟩ := hpart.exists_unit hlt
  have hmembers : u.members = [x] := by
    rcases unit_cases hx hfence (mem_of_getElem? hu) with hsame | hfront | hback
    · exact hsame
    · exact absurd (hfront x hxu) (Nat.lt_irrefl x)
    · exact absurd (hback x hxu) (Nat.lt_irrefl x)
  have hunit {l : Nat} (hl : l < (opUnits regs ops).length) :
      (opUnits regs ops)[l]? = some ((opUnits regs ops).getD l default) := by simp [hl]
  -- what a unit up to the fence depends on lies in front of the fence
  have hclosed : ∀ l < k + 1, ∀ d ∈ (unitDependencies regs ops).getD l [], d < k := by
    intro l hl d hd
    have hk := (List.getElem?_eq_some_iff.1 hu).1
    have hv := hunit (Nat.lt_of_lt_of_le hl hk)
    obtain ⟨-, i, hi, p, hp, rfl⟩ := (mem_unitDependencies_iff hv).1 hd
    have hix : i ≤ x := by
      rcases Nat.lt_or_eq_of_le (Nat.le_of_lt_succ hl) with hlk | rfl
      · exact Nat.le_of_lt ((members_of_unit hx hfence hu hmembers hv).1 hlk i hi)
      · cases hv.symm.trans hu
        rw [hmembers] at hi
        exact Nat.le_of_eq (mem_singleton.1 hi)
    have hpx : p < x := Nat.lt_of_lt_of_le (lt_of_mem_dependencies hp) hix
    obtain ⟨d, w, hw, hpw⟩ := hpart.exists_unit (Nat.lt_trans hpx hlt)
    rw [hpart.assignment_eq hw hpw]
    rcases Nat.lt_trichotomy d k with hdk | rfl | hkd
    · exact hdk
    · cases hw.symm.trans hu
      rw [hmembers] at hpw
      exact absurd (mem_singleton.1 hpw) (Nat.ne_of_lt hpx)
    · exact absurd ((members_of_unit hx hfence hu hmembers hw).2 hkd p hpw) (Nat.lt_asymm hpx)
  have hbelow := unitOrder_low_first fun l hl => hclosed l (Nat.lt_succ_of_lt hl)
  have hupto := unitOrder_low_first fun l hl d hd => Nat.lt_succ_of_lt (hclosed l hl d hd)
  have hperm := (unitOrder_spec regs ops).1
  have hnodup : (unitOrder regs ops).Nodup := hperm.nodup_iff.2 nodup_range
  have hk : k ∈ unitOrder regs ops :=
    hperm.mem_iff.2 (List.mem_range.2 (List.getElem?_eq_some_iff.1 hu).1)
  obtain ⟨before, after, horder⟩ := append_of_mem hk
  have hmem {l : Nat} (hl : l ∈ before ∨ l ∈ after) : l ∈ unitOrder regs ops := by
    rw [horder, mem_append, mem_cons]
    exact hl.imp id .inr
  rw [horder, nodup_append, nodup_cons] at hnodup
  rw [horder, pairwise_append, pairwise_cons] at hbelow hupto
  have hgetD : ((opUnits regs ops).getD k default).members = [x] := by
    rw [getD_eq_getElem?_getD, hu]
    exact hmembers
  refine ⟨before.map fun l => ((opUnits regs ops).getD l default).members,
    after.map fun l => ((opUnits regs ops).getD l default).members, ?_, ?_, ?_⟩
  · rw [emitted, horder, map_map, map_append, map_cons]
    exact congrArg (_ ++ · :: _) hgetD
  · refine forall_mem_map.2 fun l hl => ?_
    have hle : l < k + 1 := hupto.2.2 l hl k (.head _) k.lt_succ_self
    have hne : l ≠ k := hnodup.2.2 l hl k (.head _)
    exact (members_of_unit hx hfence hu hmembers (hunit (lt_of_mem_unitOrder (hmem (.inl hl))))).1
      (by omega)
  · refine forall_mem_map.2 fun l hl => ?_
    have hge : ¬l < k := fun hlk => Nat.lt_irrefl k (hbelow.2.1.1 l hl hlk)
    have hne : l ≠ k := fun heq => hnodup.2.1.1 (heq ▸ hl)
    exact (members_of_unit hx hfence hu hmembers (hunit (lt_of_mem_unitOrder (hmem (.inr hl))))).2
      (by omega)

theorem fenced_range {n : Nat} (h : x < n) : Fenced ((range n).map ([·])) x := by
  obtain ⟨before, after, hrange⟩ := append_of_mem (mem_range.2 h)
  have hsorted : (range n).Pairwise (· < ·) := pairwise_lt_range
  rw [hrange, pairwise_append, pairwise_cons] at hsorted
  refine ⟨before.map ([·]), after.map ([·]), by rw [hrange, map_append, map_cons], ?_, ?_⟩
  · exact forall_mem_map.2 fun i hi =>
      forall_mem_singleton.2 (hsorted.2.2 i hi x (.head _))
  · exact forall_mem_map.2 fun i hi => forall_mem_singleton.2 (hsorted.2.1.1 i hi)

/-- Merged operations are units of the operations before, each operation in one unit, and every
fence stands between all that preceded it and all that followed it. -/
theorem mergeOps_fences (regs : RegisterFile) (share : Bool) (ops : List Op) :
    ∃ units, ArrangesOps regs ops units (mergeOps regs share ops).1 ∧
      units.flatten.Perm (List.range ops.length) ∧
      ∀ x op, ops[x]? = some op → op.isFence = true → Fenced units x := by
  cases share with
  | false =>
    refine ⟨_, arranges_self regs ops, ?_, fun x op hx _ => ?_⟩
    · rw [← flatMap_def]
      exact .of_eq (flatMap_singleton' _)
    · exact fenced_range (List.getElem?_eq_some_iff.1 hx).1
  | true =>
    refine ⟨_, arranges_mergeRounds regs ops, ?_, fun x op => fenced_emitted⟩
    rw [← flatMap_def]
    exact (emission_emitted regs ops).perm

/-- A text that is printed among openings of secrets: those behind it could otherwise share the
round of the one in front of it, and the load could move. -/
theorem mergeOps_fences_print :
    let reveal (k : Nat) : Op := .inst ⟨.reveal, .base, 1, [.number 0, .reg ⟨0, k⟩, .reg ⟨0, k + 1⟩]⟩
    let ops : List Op := [reveal 0, .inst ⟨.printText, .base, 1, [.text "next"]⟩, reveal 2,
      .inst ⟨.ldint, .base, 1, [.reg ⟨0, 6⟩, .number 3]⟩, reveal 4]
    ∃ units, ArrangesOps (.new 0) ops units (mergeOps (.new 0) true ops).1 ∧ Fenced units 1 := by
  intro reveal ops
  obtain ⟨units, harranges, -, hfences⟩ := mergeOps_fences (.new 0) true ops
  exact ⟨units, harranges, hfences 1 _ rfl rfl⟩

end Fences

end SecureTape
